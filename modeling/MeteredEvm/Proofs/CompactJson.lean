import MeteredEvm.Json

/-!
# `MeteredEvm.Proofs.CompactJson` — the reader undoes compact writing

A document whose numbers are naturals and whose texts need no escapes has a compact text, without
blanks, and the strict reader takes that text back to the document. Inside an array or an object a
value is followed by a comma or a closing bracket. So what is proved of a value is that the reader
stops right where its text stops, whichever of these follows, and for an array or an object that
comes from its parts.

## Contents
* `compact`, `Plain` — compact texts, and the documents that have one.
* `number?_toDigits`, `pieces?_plain` — numbers and texts.
* `Reads`, `items?_compactAll`, `members?_compactMembers` — what the reader does in front of an end.
* `Plain.reads`, `parse?_compact` — the round trip.
-/

namespace MeteredEvm.Json

/-! ## Writing -/

/-- A text in quotes. -/
def quote (text : List Char) : List Char := '"' :: (text ++ ['"'])

mutual

/-- The text of a document without blanks. Nothing is escaped. -/
def compact : Json → List Char
  | null => ['n', 'u', 'l', 'l']
  | bool true => ['t', 'r', 'u', 'e']
  | bool false => ['f', 'a', 'l', 's', 'e']
  | number literal => literal
  | string text => quote (text.getD [])
  | array items => '[' :: ([','].intercalate (compactAll items) ++ [']'])
  | object members => '{' :: ([','].intercalate (compactMembers members) ++ ['}'])

/-- The texts of the elements of an array. -/
def compactAll : List Json → List (List Char)
  | [] => []
  | v :: vs => compact v :: compactAll vs

/-- The texts of the members of an object. -/
def compactMembers : List (Option (List Char) × Json) → List (List Char)
  | [] => []
  | (name, v) :: ms => (quote (name.getD []) ++ ':' :: compact v) :: compactMembers ms

end

/-- A character that stands for itself in a string. -/
def isPlain (c : Char) : Bool := 0x20 ≤ c.toNat && c != '"' && c != '\\'

/-- There is a text, and it needs no escapes. -/
def IsPlainText (text : Option (List Char)) : Prop :=
  ∃ t, text = some t ∧ ∀ c ∈ t, isPlain c = true

/-- A document whose numbers are naturals and whose texts need no escapes. -/
inductive Plain : Json → Prop where
  | null : Plain null
  | bool (b : Bool) : Plain (bool b)
  | amount (n : Nat) : Plain (number (Nat.toDigits 10 n))
  | string {text : Option (List Char)} (h : IsPlainText text) : Plain (string text)
  | array {items : List Json} (h : ∀ v ∈ items, Plain v) : Plain (array items)
  | object {members : List (Option (List Char) × Json)} (hnames : ∀ m ∈ members, IsPlainText m.1)
      (hvalues : ∀ m ∈ members, Plain m.2) : Plain (object members)

/-- A text that can follow a value: none, or one that starts with a comma or a closing bracket. -/
def Ends (rest : List Char) : Prop := ∀ c ∈ rest.head?, c = ',' ∨ c = ']' ∨ c = '}'

theorem ends_cons {c : Char} (h : c = ',' ∨ c = ']' ∨ c = '}') (rest : List Char) :
    Ends (c :: rest) := by
  intro d hd
  cases hd
  exact h

theorem skipBlanks_cons {c : Char} (h : Hex.isBlank c = false) (text : List Char) :
    skipBlanks (c :: text) = c :: text := by
  unfold skipBlanks
  rw [List.dropWhile_cons_of_neg]
  rw [h]
  decide

/-! ## Texts -/

theorem pieces?_plain {t : List Char} (h : ∀ c ∈ t, isPlain c = true) (rest : List Char) :
    pieces? (t ++ '"' :: rest) = some (t.map .char, rest) := by
  induction t with
  | nil => rfl
  | cons c t ih =>
      have hc := h c List.mem_cons_self
      simp only [isPlain, Bool.and_eq_true, decide_eq_true_eq, bne_iff_ne] at hc
      obtain ⟨⟨hcontrol, hquote⟩, hescape⟩ := hc
      have hrest := ih fun c hc => h c (List.mem_cons_of_mem _ hc)
      rw [List.cons_append, pieces?.eq_5 _ _ hquote (fun _ _ _ _ _ h _ => hescape h)
        (fun _ _ h _ => hescape h), if_neg (not_or.2 ⟨by omega, hescape⟩), hrest]
      rfl

theorem joinPieces_map_char (t : List Char) : joinPieces (t.map .char) = some t := by
  induction t with
  | nil => rfl
  | cons c t ih => rw [List.map_cons, joinPieces, ih, Option.map_some]

/-! ## Numbers -/

theorem ne_of_isDigit {c d : Char} (hc : c.isDigit = true) (hd : d.isDigit = false) : c ≠ d := by
  rintro rfl
  rw [hd] at hc
  cases hc

theorem isBlank_of_isDigit {c : Char} (hc : c.isDigit = true) : Hex.isBlank c = false := by
  have hne (d : Char) (hd : d.isDigit = false) : c ≠ d := ne_of_isDigit hc hd
  simp only [Hex.isBlank, hne ' ' rfl, hne '\n' rfl, hne '\t' rfl, hne '\r' rfl, decide_false,
    Bool.or_self]

theorem toDigits_eq_cons (n : Nat) :
    ∃ c cs, Nat.toDigits 10 n = c :: cs ∧ c.isDigit = true := by
  cases hds : Nat.toDigits 10 n with
  | nil => exact absurd hds Nat.toDigits_ne_nil
  | cons c cs =>
      have hc : c ∈ Nat.toDigits 10 n := hds ▸ List.mem_cons_self
      exact ⟨c, cs, rfl, Nat.isDigit_of_mem_toDigits (by decide) (by decide) hc⟩

/-- Only zero is written with a zero in front. -/
theorem eq_zero_of_toDigits {n : Nat} {ds : List Char} (h : Nat.toDigits 10 n = '0' :: ds) :
    n = 0 := by
  induction n using Nat.strongRecOn generalizing ds with
  | ind n ih =>
      by_cases hn : n < 10
      · have hzero : ∀ d < 10, Nat.digitChar d = '0' → d = 0 := by decide
        rw [Nat.toDigits_of_lt_base hn] at h
        exact hzero n hn (List.cons.inj h).1
      · obtain ⟨c, cs, hfront, -⟩ := toDigits_eq_cons (n / 10)
        rw [Nat.toDigits_of_base_le (by decide) (by omega), hfront, List.cons_append] at h
        rw [(List.cons.inj h).1] at hfront
        have hquotient := ih (n / 10) (by omega) hfront
        omega

theorem takeDigits_append {ds rest : List Char} (hds : ∀ c ∈ ds, c.isDigit = true)
    (hrest : Ends rest) : takeDigits (ds ++ rest) = (ds, rest) := by
  have hnone : rest.takeWhile Char.isDigit = [] ∧ rest.dropWhile Char.isDigit = rest := by
    cases rest with
    | nil => exact ⟨rfl, rfl⟩
    | cons c rest =>
        have hc : ¬ c.isDigit = true := by
          obtain rfl | rfl | rfl := hrest c rfl <;> decide
        exact ⟨List.takeWhile_cons_of_neg hc, List.dropWhile_cons_of_neg hc⟩
  unfold takeDigits
  rw [List.takeWhile_append_of_pos hds, List.dropWhile_append_of_pos hds, hnone.1, hnone.2,
    List.append_nil]

theorem wholePart?_toDigits (n : Nat) {rest : List Char} (hrest : Ends rest) :
    wholePart? (Nat.toDigits 10 n ++ rest) = some (Nat.toDigits 10 n, rest) := by
  have hds : ∀ c ∈ Nat.toDigits 10 n, c.isDigit = true := fun c hc =>
    Nat.isDigit_of_mem_toDigits (by decide) (by decide) hc
  unfold wholePart?
  rw [takeDigits_append hds hrest]
  split
  · rename_i heq
    rw [heq]
  · -- A zero in front of other digits.
    rename_i hlone heq
    have hn := eq_zero_of_toDigits (Prod.mk.inj heq).1
    rw [hn, Nat.toDigits_zero] at heq
    exact absurd (List.cons.inj (Prod.mk.inj heq).1).2.symm hlone
  · rename_i heq
    exact absurd (Prod.mk.inj heq).1 Nat.toDigits_ne_nil
  · rename_i heq
    rw [heq]

theorem fraction?_ends {rest : List Char} (h : Ends rest) : fraction? rest = some ([], rest) := by
  cases rest with
  | nil => rfl
  | cons c rest =>
      obtain rfl | rfl | rfl := h c rfl <;> rfl

theorem exponent?_ends {rest : List Char} (h : Ends rest) : exponent? rest = some ([], rest) := by
  cases rest with
  | nil => rfl
  | cons c rest =>
      obtain rfl | rfl | rfl := h c rfl <;> rfl

/-- A natural is read as its digits. -/
theorem number?_toDigits (n : Nat) {rest : List Char} (hrest : Ends rest) :
    number? (Nat.toDigits 10 n ++ rest) = some (Nat.toDigits 10 n, rest) := by
  have hwhole := wholePart?_toDigits n hrest
  obtain ⟨c, cs, hds, hc⟩ := toDigits_eq_cons n
  rw [hds] at hwhole ⊢
  unfold number?
  split
  rename_i sign text heq
  split at heq
  · rename_i hminus
    exact absurd (List.cons.inj hminus).1 (ne_of_isDigit hc rfl)
  · cases heq
    simp only [hwhole, fraction?_ends hrest, exponent?_ends hrest, Option.bind_eq_bind,
      Option.bind_some, List.append_nil, List.nil_append]
    rfl

/-- A value that starts with a digit is a number. -/
theorem value?_digit {c : Char} (h : c.isDigit = true) (fuel : Nat) (text : List Char) :
    value? (fuel + 1) (c :: text) =
      (number? (c :: text)).map fun (literal, rest) => (number literal, rest) := by
  have hne (d : Char) (hd : d.isDigit = false) : c ≠ d := ne_of_isDigit h hd
  rw [value?, skipBlanks_cons (isBlank_of_isDigit h)]
  split
  · rename_i heq
    exact absurd (List.cons.inj heq).1 (hne 'n' rfl)
  · rename_i heq
    exact absurd (List.cons.inj heq).1 (hne 't' rfl)
  · rename_i heq
    exact absurd (List.cons.inj heq).1 (hne 'f' rfl)
  · rename_i heq
    exact absurd (List.cons.inj heq).1 (hne '"' rfl)
  · rename_i heq
    exact absurd (List.cons.inj heq).1 (hne '[' rfl)
  · rename_i heq
    exact absurd (List.cons.inj heq).1 (hne '{' rfl)
  · rfl

/-! ## Parts between commas -/

theorem commas_append (l l' : List Char) (ls : List (List Char)) (rest : List Char) :
    [','].intercalate (l :: l' :: ls) ++ rest =
      l ++ ',' :: ([','].intercalate (l' :: ls) ++ rest) := by
  rw [List.intercalate_cons_cons, List.append_assoc, List.append_assoc, List.singleton_append]

theorem length_commas (l l' : List Char) (ls : List (List Char)) :
    ([','].intercalate (l :: l' :: ls)).length =
      l.length + 1 + ([','].intercalate (l' :: ls)).length := by
  rw [List.intercalate_cons_cons, List.length_append, List.length_append, List.length_singleton]

theorem exists_commas_eq (l : List Char) (ls : List (List Char)) :
    ∃ more, [','].intercalate (l :: ls) = l ++ more := by
  cases ls with
  | nil => exact ⟨[], by rw [List.intercalate_singleton, List.append_nil]⟩
  | cons l' ls => exact ⟨_, by rw [List.intercalate_cons_cons, List.append_assoc]⟩

/-! ## Reading in front of an end -/

/-- In front of an end the text of the document is read as the document, and the reader stops at the
    end. The length of the text is fuel enough. -/
def Reads (v : Json) : Prop :=
  ∀ (fuel : Nat) (rest : List Char), (compact v).length ≤ fuel → Ends rest →
    value? fuel (compact v ++ rest) = some (v, rest)

theorem items?_last {fuel : Nat} {text rest : List Char} {v : Json}
    (hv : value? fuel text = some (v, ']' :: rest)) : items? (fuel + 1) text = some ([v], rest) := by
  rw [items?, hv]
  rfl

theorem items?_more {fuel : Nat} {text more rest : List Char} {v : Json} {vs : List Json}
    (hv : value? fuel text = some (v, ',' :: more)) (hmore : items? fuel more = some (vs, rest)) :
    items? (fuel + 1) text = some (v :: vs, rest) := by
  rw [items?, hv]
  show (items? fuel more).bind _ = _
  rw [hmore]
  rfl

theorem items?_compactAll {items : List Json} (hne : items ≠ []) (h : ∀ v ∈ items, Reads v)
    (fuel : Nat) (rest : List Char)
    (hfuel : ([','].intercalate (compactAll items)).length < fuel) :
    items? fuel ([','].intercalate (compactAll items) ++ ']' :: rest) = some (items, rest) := by
  induction items generalizing fuel with
  | nil => exact absurd rfl hne
  | cons v vs ih =>
      obtain ⟨fuel, rfl⟩ : ∃ k, fuel = k + 1 := ⟨fuel - 1, by omega⟩
      have hv := h v List.mem_cons_self
      cases vs with
      | nil =>
          rw [compactAll, compactAll, List.intercalate_singleton] at hfuel ⊢
          exact items?_last (hv fuel _ (by omega) (ends_cons (by decide) _))
      | cons w vs =>
          have hrest := ih (List.cons_ne_nil w vs) fun w hw => h w (List.mem_cons_of_mem _ hw)
          rw [compactAll] at hrest hfuel ⊢
          rw [compactAll, length_commas] at hfuel
          rw [compactAll, commas_append]
          exact items?_more (hv fuel _ (by omega) (ends_cons (by decide) _)) (hrest fuel (by omega))

/-- A member with a plain name: its value decides how the members go on. -/
theorem members?_plain {name : List Char} (hname : ∀ c ∈ name, isPlain c = true) (fuel : Nat)
    (text : List Char) :
    members? (fuel + 1) (quote name ++ ':' :: text) =
      (value? fuel text).bind fun (v, rest) =>
        match skipBlanks rest with
        | ',' :: rest => (members? fuel rest).bind fun (ms, rest) => some ((some name, v) :: ms, rest)
        | '}' :: rest => some ([(some name, v)], rest)
        | _ => none := by
  rw [members?, quote, List.cons_append, List.append_assoc, List.singleton_append]
  show (pieces? (name ++ '"' :: ':' :: text)).bind _ = _
  rw [pieces?_plain hname]
  simp only [Option.bind_some, joinPieces_map_char]
  rfl

theorem members?_last {fuel : Nat} {name text rest : List Char} {v : Json}
    (hname : ∀ c ∈ name, isPlain c = true) (hv : value? fuel text = some (v, '}' :: rest)) :
    members? (fuel + 1) (quote name ++ ':' :: text) = some ([(some name, v)], rest) := by
  rw [members?_plain hname, hv]
  rfl

theorem members?_more {fuel : Nat} {name text more rest : List Char} {v : Json}
    {ms : List (Option (List Char) × Json)} (hname : ∀ c ∈ name, isPlain c = true)
    (hv : value? fuel text = some (v, ',' :: more)) (hmore : members? fuel more = some (ms, rest)) :
    members? (fuel + 1) (quote name ++ ':' :: text) = some ((some name, v) :: ms, rest) := by
  rw [members?_plain hname, hv]
  show (members? fuel more).bind _ = _
  rw [hmore]
  rfl

theorem members?_compactMembers {members : List (Option (List Char) × Json)} (hne : members ≠ [])
    (hnames : ∀ m ∈ members, IsPlainText m.1) (h : ∀ m ∈ members, Reads m.2)
    (fuel : Nat) (rest : List Char)
    (hfuel : ([','].intercalate (compactMembers members)).length < fuel) :
    members? fuel ([','].intercalate (compactMembers members) ++ '}' :: rest) =
      some (members, rest) := by
  induction members generalizing fuel with
  | nil => exact absurd rfl hne
  | cons m ms ih =>
      obtain ⟨fuel, rfl⟩ : ∃ k, fuel = k + 1 := ⟨fuel - 1, by omega⟩
      obtain ⟨name, v⟩ := m
      obtain ⟨name, hname, hplain⟩ := hnames _ List.mem_cons_self
      cases hname
      have hv : Reads v := h _ List.mem_cons_self
      cases ms with
      | nil =>
          rw [compactMembers, compactMembers, List.intercalate_singleton] at hfuel ⊢
          rw [List.length_append, List.length_cons] at hfuel
          rw [List.append_assoc, List.cons_append]
          exact members?_last hplain (hv fuel _ (by omega) (ends_cons (by decide) _))
      | cons w ms =>
          have hrest := ih (List.cons_ne_nil w ms)
            (fun w hw => hnames w (List.mem_cons_of_mem _ hw))
            (fun w hw => h w (List.mem_cons_of_mem _ hw))
          obtain ⟨name', w⟩ := w
          rw [compactMembers] at hrest hfuel ⊢
          rw [compactMembers, length_commas, List.length_append, List.length_cons] at hfuel
          rw [compactMembers, commas_append, List.append_assoc, List.cons_append]
          exact members?_more hplain (hv fuel _ (by omega) (ends_cons (by decide) _))
            (hrest fuel (by omega))

/-! ## Every plain document -/

/-- The text of a plain document starts with a character that is no blank and closes no array. -/
theorem Plain.compact_eq_cons {v : Json} (h : v.Plain) :
    ∃ c text, compact v = c :: text ∧ Hex.isBlank c = false ∧ c ≠ ']' := by
  cases h with
  | null => exact ⟨_, _, by rw [compact], rfl, by decide⟩
  | bool b => cases b <;> exact ⟨_, _, by rw [compact], rfl, by decide⟩
  | amount n =>
      obtain ⟨c, cs, hds, hc⟩ := toDigits_eq_cons n
      exact ⟨c, cs, by rw [compact, hds], isBlank_of_isDigit hc, ne_of_isDigit hc rfl⟩
  | string h => exact ⟨_, _, by rw [compact, quote], rfl, by decide⟩
  | array h => exact ⟨_, _, by rw [compact], rfl, by decide⟩
  | object h h' => exact ⟨_, _, by rw [compact], rfl, by decide⟩

theorem Plain.length_compact_pos {v : Json} (h : v.Plain) : 0 < (compact v).length := by
  obtain ⟨c, text, htext, -, -⟩ := h.compact_eq_cons
  rw [htext]
  exact Nat.succ_pos _

theorem Reads.of_succ {v : Json} (hpos : 0 < (compact v).length)
    (h : ∀ fuel rest, Ends rest → value? (fuel + 1) (compact v ++ rest) = some (v, rest)) :
    Reads v := by
  intro fuel rest hfuel hrest
  obtain ⟨fuel, rfl⟩ : ∃ k, fuel = k + 1 := ⟨fuel - 1, by omega⟩
  exact h fuel rest hrest

theorem value?_array {fuel : Nat} {c : Char} {text rest : List Char} {vs : List Json}
    (hblank : Hex.isBlank c = false) (hclose : c ≠ ']')
    (h : items? fuel (c :: text) = some (vs, rest)) :
    value? (fuel + 1) ('[' :: c :: text) = some (array vs, rest) := by
  simp only [value?, skipBlanks_cons (c := '[') (by decide), skipBlanks_cons hblank, h]
  split
  · rename_i heq
    exact absurd (List.cons.inj heq).1 hclose
  · rfl

theorem value?_object {fuel : Nat} {text rest : List Char} {ms : List (Option (List Char) × Json)}
    (h : members? fuel ('"' :: text) = some (ms, rest)) :
    value? (fuel + 1) ('{' :: '"' :: text) = some (object ms, rest) := by
  rw [value?]
  show (members? fuel ('"' :: text)).map _ = _
  rw [h]
  rfl

theorem reads_array {items : List Json} (hplain : ∀ v ∈ items, v.Plain)
    (h : ∀ v ∈ items, Reads v) : Reads (array items) := by
  intro fuel rest hfuel _
  rw [compact, List.length_cons, List.length_append, List.length_singleton] at hfuel
  obtain ⟨fuel, rfl⟩ : ∃ k, fuel = k + 1 := ⟨fuel - 1, by omega⟩
  rw [compact, List.cons_append, List.append_assoc, List.singleton_append]
  cases items with
  | nil =>
      rw [value?]
      rfl
  | cons v vs =>
      have hitems := items?_compactAll (List.cons_ne_nil v vs) h fuel rest (by omega)
      -- The first element does not start like the end of an empty array.
      obtain ⟨c, text, htext, hblank, hclose⟩ := (hplain v List.mem_cons_self).compact_eq_cons
      obtain ⟨more, hmore⟩ := exists_commas_eq (compact v) (compactAll vs)
      rw [compactAll, hmore, htext] at hitems ⊢
      exact value?_array hblank hclose hitems

theorem reads_object {members : List (Option (List Char) × Json)}
    (hnames : ∀ m ∈ members, IsPlainText m.1) (h : ∀ m ∈ members, Reads m.2) :
    Reads (object members) := by
  intro fuel rest hfuel _
  rw [compact, List.length_cons, List.length_append, List.length_singleton] at hfuel
  obtain ⟨fuel, rfl⟩ : ∃ k, fuel = k + 1 := ⟨fuel - 1, by omega⟩
  rw [compact, List.cons_append, List.append_assoc, List.singleton_append]
  cases members with
  | nil =>
      rw [value?]
      rfl
  | cons m ms =>
      have hmembers := members?_compactMembers (List.cons_ne_nil m ms) hnames h fuel rest (by omega)
      obtain ⟨name, v⟩ := m
      obtain ⟨more, hmore⟩ :=
        exists_commas_eq (quote (name.getD []) ++ ':' :: compact v) (compactMembers ms)
      rw [compactMembers, hmore] at hmembers ⊢
      exact value?_object hmembers

theorem Plain.reads {v : Json} (h : v.Plain) : v.Reads := by
  induction h with
  | null =>
      refine .of_succ Plain.null.length_compact_pos fun fuel rest _ => ?_
      rw [compact, value?]
      rfl
  | bool b =>
      refine .of_succ (Plain.bool b).length_compact_pos fun fuel rest _ => ?_
      cases b <;> rw [compact, value?] <;> rfl
  | amount n =>
      refine .of_succ (Plain.amount n).length_compact_pos fun fuel rest hrest => ?_
      obtain ⟨c, cs, hds, hc⟩ := toDigits_eq_cons n
      have hnumber := number?_toDigits n hrest
      rw [hds, List.cons_append] at hnumber
      rw [compact, hds, List.cons_append, value?_digit hc, hnumber]
      rfl
  | string h =>
      refine .of_succ (Plain.string h).length_compact_pos fun fuel rest _ => ?_
      obtain ⟨t, rfl, ht⟩ := h
      rw [compact, quote, List.cons_append, List.append_assoc, List.singleton_append, value?]
      show (pieces? (t ++ '"' :: rest)).map _ = _
      rw [pieces?_plain ht]
      show some (Json.string (joinPieces (t.map .char)), rest) = _
      rw [joinPieces_map_char]
  | array h ih => exact reads_array h ih
  | object hnames hvalues ih => exact reads_object hnames ih

/-- **Compact texts are read back.** -/
theorem parse?_compact {v : Json} (h : v.Plain) : parse? (compact v) = some v := by
  have hreads := h.reads (2 * (compact v).length + 2) [] (by omega) (by intro c hc; cases hc)
  rw [List.append_nil] at hreads
  rw [parse?, hreads]
  rfl

end MeteredEvm.Json
