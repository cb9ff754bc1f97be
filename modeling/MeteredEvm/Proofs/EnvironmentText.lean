import MeteredEvm.Environment
import MeteredEvm.Proofs.CompactJson
import MeteredEvm.Proofs.HexText

/-!
# `MeteredEvm.Proofs.EnvironmentText` — an environment is told exactly by its text

An environment is written as a compact record of its fields and read from any JSON text, in which
fields may be missing, stand in any order or be mixed with others. Between the two stands the
document of the environment: its compact text is what is written, and its fields are what is read.
So writing and reading meet in the middle, where only the texts of single values are left.

## Contents
* `Json.recordMembers`, `Json.fields?_record` — records, and reading their fields.
* `Environment.document`, `Environment.toList_toJson`, `Environment.read?_document` — the document.
* `Environment.normalize?`, `environment_text_round_trips`.
-/

namespace MeteredEvm

namespace Json

/-! ## Records -/

/-- The members of a record with the given names and values. -/
def recordMembers (names : List String) (values : List Json) : List (Option (List Char) × Json) :=
  (names.zip values).map fun (name, v) => (some name.toList, v)

theorem mem_recordMembers {names : List String} {values : List Json}
    {m : Option (List Char) × Json} (h : m ∈ recordMembers names values) :
    ∃ name ∈ names, ∃ v ∈ values, m = (some name.toList, v) := by
  obtain ⟨⟨name, v⟩, hmem, rfl⟩ := List.mem_map.1 h
  exact ⟨name, (List.of_mem_zip hmem).1, v, (List.of_mem_zip hmem).2, rfl⟩

theorem eq_of_text_beq {s t : String} (h : (some s.toList == some t.toList) = true) : s = t :=
  String.toList_inj.1 (Option.some.inj (eq_of_beq h))

theorem filter_recordMembers_of_notMem {names : List String} {name : String} (h : name ∉ names)
    (values : List Json) :
    (recordMembers names values).filter (fun m => m.1 == some name.toList) = [] := by
  refine List.filter_eq_nil_iff.2 fun m hm heq => ?_
  obtain ⟨n, hn, v, -, rfl⟩ := mem_recordMembers hm
  exact h (eq_of_text_beq heq ▸ hn)

/-- A field of a record has one member. -/
theorem filter_recordMembers {names : List String} {values : List Json} (hnodup : names.Nodup)
    {name : String} {v : Json} (hmem : (name, v) ∈ names.zip values) :
    (recordMembers names values).filter (fun m => m.1 == some name.toList) =
      [(some name.toList, v)] := by
  induction names generalizing values with
  | nil => cases hmem
  | cons n names ih =>
      cases values with
      | nil => cases hmem
      | cons w values =>
          obtain ⟨hn, hnames⟩ := List.nodup_cons.1 hnodup
          have hcons : recordMembers (n :: names) (w :: values) =
              (some n.toList, w) :: recordMembers names values := rfl
          rw [hcons, List.filter_cons]
          obtain heq | hmem := List.mem_cons.1 hmem
          · cases heq
            rw [if_pos (beq_self_eq_true _), filter_recordMembers_of_notMem hn]
          · have hne : ¬ (some n.toList == some name.toList) = true := fun heq =>
              hn (eq_of_text_beq heq ▸ (List.of_mem_zip hmem).1)
            rw [if_neg hne, ih hnames hmem]

theorem mapM_eq_some {α β : Type} {f : α → Option β} {as : List α} {bs : List β}
    (hlength : as.length = bs.length) (h : ∀ p ∈ as.zip bs, f p.1 = some p.2) :
    as.mapM f = some bs := by
  induction as generalizing bs with
  | nil =>
      rw [List.length_eq_zero_iff.1 hlength.symm]
      rfl
  | cons a as ih =>
      cases bs with
      | nil => exact absurd hlength (Nat.succ_ne_zero _)
      | cons b bs =>
          have hrest := ih (Nat.succ.inj hlength) fun p hp => h p (List.mem_cons_of_mem _ hp)
          have hhead : f a = some b := h (a, b) List.mem_cons_self
          rw [List.mapM_cons, hhead, hrest]
          rfl

/-- The fields of a record are read in order. -/
theorem fields?_record {names : List String} {values : List Json} (hnodup : names.Nodup)
    (hlength : names.length = values.length) :
    (object (recordMembers names values)).fields? names = some (values.map some) := by
  have hnamed : (recordMembers names values).all (·.1.isSome) = true := by
    refine List.all_eq_true.2 fun m hm => ?_
    obtain ⟨n, -, v, -, rfl⟩ := mem_recordMembers hm
    rfl
  rw [fields?, hnamed]
  show names.mapM _ = _
  refine mapM_eq_some (by rw [List.length_map, hlength]) fun p hp => ?_
  rw [List.zip_map_right] at hp
  obtain ⟨⟨name, v⟩, hmem, rfl⟩ := List.mem_map.1 hp
  dsimp only [Prod.map_apply, id]
  rw [filter_recordMembers hnodup hmem]

theorem plain_record {names : List String} {values : List Json}
    (hnames : ∀ name ∈ names, ∀ c ∈ name.toList, isPlain c = true)
    (hvalues : ∀ v ∈ values, v.Plain) : (object (recordMembers names values)).Plain := by
  refine .object (fun m hm => ?_) fun m hm => ?_
  · obtain ⟨name, hname, v, -, rfl⟩ := mem_recordMembers hm
    exact ⟨_, rfl, hnames name hname⟩
  · obtain ⟨name, -, v, hv, rfl⟩ := mem_recordMembers hm
    exact hvalues v hv

/-- Hexadecimal text needs no escapes. -/
theorem plain_hex {text : List Char} {n : Nat} (h : Hex.Writes text n) :
    (string (some (String.ofList ('0' :: 'x' :: text)).toList)).Plain := by
  have hdigits : ∀ c ∈ text, isPlain c = true := by
    have hall : ∀ d < 16, isPlain (Nat.digitChar d) = true := by decide
    obtain ⟨ds, rfl, hds, -⟩ := h
    intro c hc
    obtain ⟨d, hd, rfl⟩ := List.mem_map.1 hc
    exact hall d (hds d hd)
  refine .string ⟨_, rfl, ?_⟩
  rw [String.toList_ofList]
  exact List.forall_mem_cons.2 ⟨rfl, List.forall_mem_cons.2 ⟨rfl, hdigits⟩⟩

/-- The digits of an amount have its value. -/
theorem foldl_toDigits (n : Nat) :
    (Nat.toDigits 10 n).foldl (fun acc c => acc * 10 + digitValue c) 0 = n := by
  have hvalue := Nat.ofDigitChars_ten_toDigits (n := n)
  rw [Nat.ofDigitChars_eq_foldl] at hvalue
  simp only [Nat.mul_comm 10] at hvalue
  exact hvalue

theorem toNat64?_toDigits {n : Nat} (h : n < 2 ^ 64) :
    (number (Nat.toDigits 10 n)).toNat64? = some n := by
  have hdigits : (Nat.toDigits 10 n).all Char.isDigit = true :=
    List.all_eq_true.2 fun c hc => Nat.isDigit_of_mem_toDigits (by decide) (by decide) hc
  rw [toNat64?, foldl_toDigits, if_pos ⟨hdigits, h⟩]

end Json

namespace Environment

open Json

/-! ## The document of an environment -/

/-- A word as a value. -/
def wordJson (w : Word) : Json := .string (some (Hex.ofWord w).toList)

/-- An address as a value. -/
def addressJson (a : Address) : Json := .string (some (Hex.ofAddress a).toList)

/-- An amount as a value. -/
def amountJson (n : UInt64) : Json := .number (Nat.toDigits 10 n.toNat)

/-- Hashes as a value. -/
def hashesJson (hs : List Hash) : Json :=
  .array (hs.map fun h => .string (some (Hex.ofHash h).toList))

/-- The values of the fields in order. -/
def fieldValues (e : Environment) : List Json :=
  [addressJson e.coinbase, amountJson e.timestamp, amountJson e.number, wordJson e.prevRandao,
   amountJson e.gasLimit, amountJson e.chainId, wordJson e.baseFee, wordJson e.blobBaseFee,
   addressJson e.origin, wordJson e.gasPrice, hashesJson e.blobHashes]

/-- The document of an environment. -/
def document (e : Environment) : Json := .object (recordMembers fieldNames e.fieldValues)

theorem plain_document (e : Environment) : e.document.Plain := by
  have hword (w : Word) : (wordJson w).Plain := plain_hex (Hex.writes_digits _)
  have haddress (a : Address) : (addressJson a).Plain := plain_hex (Hex.writes_padded 40 _)
  have hamount (n : UInt64) : (amountJson n).Plain := .amount _
  have hhashes (hs : List Hash) : (hashesJson hs).Plain := by
    refine .array fun v hv => ?_
    obtain ⟨x, -, rfl⟩ := List.mem_map.1 hv
    exact plain_hex (Hex.writes_padded 64 _)
  have hnames : (fieldNames.all fun name => name.toList.all isPlain) = true := by decide +kernel
  refine plain_record (fun name hname => List.all_eq_true.1 (List.all_eq_true.1 hnames name hname)) ?_
  simp only [fieldValues, List.forall_mem_cons, hword, haddress, hamount, hhashes, true_and]
  exact fun v hv => absurd hv List.not_mem_nil

/-! ## Writing -/

theorem toList_quoted (s : String) : (quoted s).toList = quote s.toList := by
  rw [quoted, String.toList_append, String.toList_append]
  rfl

theorem toList_member (name value : String) :
    (member name value).toList = quote name.toList ++ ':' :: value.toList := by
  rw [member, String.toList_append, String.toList_append, toList_quoted, List.append_assoc]
  rfl

theorem toList_amount (n : UInt64) : (toString n.toNat).toList = compact (amountJson n) := by
  rw [Nat.toString_eq_ofList_toDigits, String.toList_ofList, amountJson, compact]

theorem toList_hashesText (hs : List Hash) : (hashesText hs).toList = compact (hashesJson hs) := by
  have hparts : (hs.map fun h => quoted (Hex.ofHash h)).map String.toList =
      compactAll (hs.map fun h => .string (some (Hex.ofHash h).toList)) := by
    induction hs with
    | nil => rfl
    | cons h hs ih =>
        rw [List.map_cons, List.map_cons, List.map_cons, compactAll, ih, toList_quoted, compact]
        rfl
  rw [hashesText, String.toList_append, String.toList_append, String.toList_intercalate, hparts,
    hashesJson, compact]
  rfl

/-- What is written is the compact text of the document. -/
theorem toList_toJson (e : Environment) : e.toJson.toList = compact e.document := by
  rw [toJson, String.toList_append, String.toList_append, String.toList_intercalate]
  simp only [List.map_cons, List.map_nil, toList_member, toList_quoted, toList_amount,
    toList_hashesText]
  rfl

/-! ## Reading -/

theorem readWord?_wordJson (w : Word) : readWord? (some (wordJson w)) = some w := by
  rw [readWord?, wordJson, toText?, Option.bind_some, Hex.toWord?_ofWord]

theorem readAddress?_addressJson (a : Address) : readAddress? (some (addressJson a)) = some a := by
  rw [readAddress?, addressJson, toText?, Option.bind_some, Hex.toAddress?_ofAddress]

theorem readAmount?_amountJson (n : UInt64) : readAmount? (some (amountJson n)) = some n := by
  rw [readAmount?, amountJson, toNat64?_toDigits n.toNat_lt, Option.map_some, UInt64.ofNat_toNat]

theorem readHashes?_hashesJson (hs : List Hash) : readHashes? (some (hashesJson hs)) = some hs := by
  rw [hashesJson, readHashes?]
  induction hs with
  | nil => rfl
  | cons x hs ih =>
      rw [List.map_cons, List.mapM_cons, ih, toText?, Option.bind_some, Hex.toHash?_ofHash]
      rfl

/-- The document is read as the environment. -/
theorem read?_document (e : Environment) : read? e.document = some e := by
  have hlength : fieldNames.length = e.fieldValues.length := rfl
  rw [read?, document, fields?_record (by decide) hlength]
  simp only [fieldValues, List.map_cons, List.map_nil, Option.bind_eq_bind, Option.bind_some,
    readWord?_wordJson, readAddress?_addressJson, readAmount?_amountJson, readHashes?_hashesJson]
  rfl

/-- What is written is read back. -/
theorem ofJson?_toJson (e : Environment) : ofJson? e.toJson = some e := by
  rw [ofJson?, toList_toJson, parse?_compact (plain_document e), Option.bind_some, read?_document]

/-- The compact text of the environment that a text describes. -/
def normalize? (text : String) : Option String := (ofJson? text).map toJson

end Environment

/-- **Texts of environments round-trip.** What `Environment.toJson` writes is the compact text of the
    `document` of the fields, and `Environment.ofJson?` reads it as exactly that environment. So the
    compact text of what any accepted text describes (`Environment.normalize?`) is accepted itself,
    describes the same, and is its own compact text. -/
theorem environment_text_round_trips :
    (∀ e : Environment, e.toJson.toList = e.document.compact ∧
        Environment.ofJson? e.toJson = some e) ∧
      ∀ text normal : String, Environment.normalize? text = some normal →
        Environment.ofJson? normal = Environment.ofJson? text ∧
          Environment.normalize? normal = some normal := by
  refine ⟨fun e => ⟨e.toList_toJson, e.ofJson?_toJson⟩, fun text normal h => ?_⟩
  obtain ⟨e, he, rfl⟩ := Option.map_eq_some_iff.1 h
  have hread := Environment.ofJson?_toJson e
  refine ⟨by rw [hread, he], ?_⟩
  rw [Environment.normalize?, hread, Option.map_some]

/-- Fields out of order, with blanks, upper case digits, leading zeros and no `0x`, among others. -/
def looseText : String :=
  "\x7b \"number\" : 18446744073709551615, \"prevrandao\": \"00aBc\", \"other\": [-1.5e3],\n" ++
  "  \"coinbase\": \"000000000000000000000000000000000000000F\", \"gas_price\": \"0x000\" \x7d"

/-- The compact text of the same environment. -/
def tightText : String :=
  "\x7b\"coinbase\":\"0x000000000000000000000000000000000000000f\",\"timestamp\":0," ++
  "\"number\":18446744073709551615,\"prevrandao\":\"0xabc\",\"gas_limit\":0,\"chain_id\":0," ++
  "\"base_fee\":\"0x0\",\"blob_base_fee\":\"0x0\"," ++
  "\"origin\":\"0x0000000000000000000000000000000000000000\",\"gas_price\":\"0x0\"," ++
  "\"blob_hashes\":[]\x7d"

theorem environment_text_round_trips_loose :
    Environment.normalize? looseText = some tightText ∧
      Environment.ofJson? tightText = Environment.ofJson? looseText ∧
        Environment.normalize? tightText = some tightText := by
  have hloose : Environment.normalize? looseText = some tightText := by decide +kernel
  exact ⟨hloose, environment_text_round_trips.2 looseText tightText hloose⟩

end MeteredEvm
