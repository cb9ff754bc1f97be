import MeteredEvm.Proofs.Execution

/-!
# `MeteredEvm.Proofs.StackAsList` — a store and a height are a list

The stack keeps its words in a fixed store and never wipes what it takes off. Here the words are
given by themselves, as a list with the top in front, and an operation either changes the list or
reports why not (`Stack.onList`). Any sequence of operations on a stack is answered as on that list
(`stack_agrees_with_list`), so the leftover words of the store cannot be seen, and where a checked
operation succeeds the unchecked one does the same.

Everything about the store goes through one fact: the list of the words holds at `n` what `peek?`
sees `n` places below the top (`Stack.getElem?_toList`).

## Contents
* `Stack.getElem?_toList`, `Stack.toList_of_push?`, `Stack.toList_of_pop?`, `Stack.toList_of_swap?`
  — the unchecked operations, on the list.
* `Stack.UncheckedAgree` — where the checked operations succeed, the unchecked ones follow them.
* `Stack.Command`, `Stack.obey`, `Stack.onList`, `Stack.obey_onList` — one operation.
* `Stack.transcript`, `stack_agrees_with_list` — any number of operations.
-/

namespace MeteredEvm

namespace Stack

variable {s s' : Stack} {w : Word} {n : Nat}

/-! ## The list of the words -/

theorem size_words (s : Stack) : s.words.size = s.height := by
  unfold words
  rw [Array.size_extract, Vector.size_toArray, Nat.sub_zero, Nat.min_eq_left s.height_le]

theorem length_toList (s : Stack) : s.toList.length = s.height := by
  unfold toList
  rw [List.length_reverse, Array.length_toList, size_words]

/-- **The list of the words holds what can be seen from the top.** -/
theorem getElem?_toList (s : Stack) (n : Nat) : s.toList[n]? = s.peek? n := by
  unfold peek?
  by_cases hn : n < s.height
  · have hlt : n < s.toList.length := by
      rw [length_toList]
      exact hn
    rw [dif_pos hn, List.getElem?_eq_getElem hlt]
    simp [toList, words, Nat.min_eq_left s.height_le]
  · have hle : s.toList.length ≤ n := by
      rw [length_toList]
      exact Nat.le_of_not_lt hn
    rw [dif_neg hn, List.getElem?_eq_none hle]

theorem toList_empty : empty.toList = [] :=
  List.eq_nil_of_length_eq_zero (length_toList _)

theorem toList_clear (s : Stack) : s.clear.toList = [] :=
  List.eq_nil_of_length_eq_zero (length_toList _)

theorem toList_of_pop? (h : s.pop? = some (w, s')) : s.toList = w :: s'.toList := by
  apply List.ext_getElem?
  intro n
  cases n with
  | zero => rw [getElem?_toList, peek?_of_pop? h, List.getElem?_cons_zero]
  | succ n =>
      rw [getElem?_toList, peek?_succ_of_pop? h, List.getElem?_cons_succ, getElem?_toList]

theorem peek?_succ_of_push? (h : s.push? w = some s') (k : Nat) : s'.peek? (k + 1) = s.peek? k := by
  unfold push? at h
  split at h
  · cases h
    unfold peek?
    by_cases hk : k < s.height
    · have hk' : k + 1 < s.height + 1 := Nat.succ_lt_succ hk
      have hne : s.height ≠ s.height - (k + 1) := by omega
      rw [dif_pos hk, dif_pos hk']
      simp only [Nat.add_sub_cancel, Vector.getElem_set_ne _ _ hne]
      simp only [Nat.add_comm k 1, ← Nat.sub_sub]
    · rw [dif_neg hk, dif_neg (fun hk' => hk (Nat.lt_of_succ_lt_succ hk'))]
  · cases h

theorem toList_of_push? (h : s.push? w = some s') : s'.toList = w :: s.toList := by
  apply List.ext_getElem?
  intro n
  cases n with
  | zero => rw [getElem?_toList, peek?_of_push? h, List.getElem?_cons_zero]
  | succ n =>
      rw [getElem?_toList, peek?_succ_of_push? h, List.getElem?_cons_succ, getElem?_toList]

/-- Repeating a word is looking at it and putting it on top. -/
theorem dup?_succ (s : Stack) (k : Nat) : s.dup? (k + 1) = (s.peek? k).bind s.push? := by
  unfold dup? peek? push?
  by_cases hk : k < s.height
  · by_cases hroom : s.height < stackLimit
    · rw [dif_pos ⟨hk, hroom⟩, dif_pos hk, Option.bind_some, dif_pos hroom]
      simp only [Nat.add_comm k 1, ← Nat.sub_sub]
    · rw [dif_neg (fun h => hroom h.2), dif_pos hk, Option.bind_some, dif_neg hroom]
  · rw [dif_neg (fun h => hk h.1), dif_neg hk, Option.bind_none]

/-- An exchange puts each of the two words in the place of the other. -/
theorem peek?_of_swap? (h : s.swap? n = some s') (i : Nat) :
    s'.peek? i = s.peek? (if i = 0 then n else if i = n then 0 else i) := by
  unfold swap? at h
  split at h
  · rename_i hn
    cases h
    have hpos := Nat.zero_lt_of_lt hn
    by_cases hzero : i = 0
    · subst hzero
      rw [if_pos rfl]
      unfold peek?
      rw [dif_pos hpos, dif_pos hn]
      exact congrArg some (Vector.getElem_swap_left ..)
    · rw [if_neg hzero]
      by_cases hin : i = n
      · subst hin
        rw [if_pos rfl]
        unfold peek?
        rw [dif_pos hn, dif_pos hpos]
        exact congrArg some (Vector.getElem_swap_right ..)
      · rw [if_neg hin]
        unfold peek?
        by_cases hi : i < s.height
        · have htop : s.height - 1 - i ≠ s.height - 1 := by omega
          have hother : s.height - 1 - i ≠ s.height - 1 - n := by omega
          have hlt := s.sub_lt_limit hpos
          rw [dif_pos hi, dif_pos hi]
          exact congrArg some
            (@Vector.getElem_swap_of_ne _ _ _ s.slots _ _ (hlt 0) (hlt n) (hlt i) htop hother)
        · rw [dif_neg hi, dif_neg hi]
  · cases h

theorem toList_of_swap? {k : Nat} {top : Word} {rest : List Word} (h : s.swap? (k + 1) = some s')
    (hs : s.toList = top :: rest) (hw : rest[k]? = some w) : s'.toList = w :: rest.set k top := by
  apply List.ext_getElem?
  intro i
  rw [getElem?_toList, peek?_of_swap? h, ← getElem?_toList, hs]
  cases i with
  | zero => rw [if_pos rfl, List.getElem?_cons_succ, hw, List.getElem?_cons_zero]
  | succ i =>
      rw [if_neg (Nat.succ_ne_zero i), List.getElem?_cons_succ, List.getElem?_set]
      by_cases hi : k = i
      · have hk : k < rest.length := (List.getElem?_eq_some_iff.1 hw).1
        rw [if_pos (congrArg (· + 1) hi.symm), if_pos hi, if_pos hk, List.getElem?_cons_zero]
      · rw [if_neg (fun h => hi (Nat.succ.inj h).symm), if_neg hi, List.getElem?_cons_succ]

/-! ## Checked and unchecked operations -/

theorem push_eq (w : Word) (s : Stack) :
    push w s =
      match s.push? w with
      | some s' => .ok () s'
      | none => .error (.fault .stackOverflow) s := by
  unfold push push?
  by_cases h : s.height < stackLimit
  · rw [dif_neg (Nat.ne_of_lt h), dif_pos h]
  · rw [dif_pos (Nat.le_antisymm s.height_le (Nat.le_of_not_lt h)), dif_neg h]

theorem pop_eq (s : Stack) :
    pop s =
      match s.pop? with
      | some (w, s') => .ok w s'
      | none => .error (.fault .stackUnderflow) s := by
  unfold pop pop?
  by_cases h : 0 < s.height
  · rw [dif_neg (Nat.ne_of_gt h), dif_pos h]
  · rw [dif_pos (Nat.eq_zero_of_not_pos h), dif_neg h]

theorem peek_eq (n : Nat) (s : Stack) :
    peek n s =
      match s.peek? n with
      | some w => .ok w s
      | none => .error (.fault .stackUnderflow) s := by
  unfold peek peek?
  by_cases h : n < s.height
  · rw [dif_neg (Nat.not_le_of_lt h), dif_pos h]
  · rw [dif_pos (Nat.le_of_not_lt h), dif_neg h]

/-- A missing word is reported before a full stack. -/
theorem dup_succ_eq (k : Nat) (s : Stack) :
    dup (k + 1) s =
      match s.peek? k with
      | some w => push w s
      | none => .error (.fault .stackUnderflow) s := by
  unfold dup peek? push
  by_cases h : k < s.height
  · rw [if_neg (by omega), dif_pos h]
    simp only [Nat.add_comm k 1, ← Nat.sub_sub]
  · rw [if_pos (.inr (by omega)), dif_neg h]

theorem swap_eq {n : Nat} (hpos : n ≠ 0) (hn : n + 1 < u64Size) (s : Stack) :
    swap n s =
      match s.swap? n with
      | some s' => .ok () s'
      | none => .error (.fault .stackUnderflow) s := by
  unfold swap swap?
  rw [if_neg hpos, if_neg (Nat.not_le_of_lt hn)]
  by_cases h : n < s.height
  · rw [dif_neg (by omega), dif_pos h]
  · rw [dif_pos (by omega), dif_neg h]

/-- **Where a checked operation succeeds, the unchecked one does the same**: it gives the same word
    and leaves the same stack, down to the leftover words. Replacing the top is taking it off and
    putting another word on. -/
structure UncheckedAgree (s : Stack) : Prop where
  push : ∀ w s', push w s = .ok () s' → s.push? w = some s'
  pop : ∀ w s', pop s = .ok w s' → s.pop? = some (w, s')
  peek : ∀ n w s', peek n s = .ok w s' → s.peek? n = some w ∧ s' = s
  dup : ∀ n s', dup n s = .ok () s' → s.dup? n = some s'
  swap : ∀ n s', swap n s = .ok () s' → s.swap? n = some s'
  setTop : ∀ old w s₁ s', Stack.pop s = .ok old s₁ → Stack.push w s₁ = .ok () s' →
    s.setTop? w = some s'

theorem push?_of_push (h : push w s = .ok () s') : s.push? w = some s' := by
  rw [push_eq] at h
  split at h
  · rename_i hpush
    cases h
    exact hpush
  · cases h

theorem pop?_of_pop (h : pop s = .ok w s') : s.pop? = some (w, s') := by
  rw [pop_eq] at h
  split at h
  · rename_i hpop
    cases h
    exact hpop
  · cases h

theorem peek?_of_peek (h : peek n s = .ok w s') : s.peek? n = some w ∧ s' = s := by
  rw [peek_eq] at h
  split at h
  · rename_i hpeek
    cases h
    exact ⟨hpeek, rfl⟩
  · cases h

theorem dup?_of_dup (h : dup n s = .ok () s') : s.dup? n = some s' := by
  cases n with
  | zero => cases h
  | succ k =>
      rw [dup_succ_eq] at h
      split at h
      · rename_i hpeek
        rw [dup?_succ, hpeek, Option.bind_some]
        exact push?_of_push h
      · cases h

theorem swap?_of_swap (h : swap n s = .ok () s') : s.swap? n = some s' := by
  have hpos : n ≠ 0 := by
    rintro rfl
    cases h
  have hn : n + 1 < u64Size := by
    apply Nat.lt_of_not_le
    intro hle
    unfold swap at h
    rw [if_neg hpos, if_pos hle] at h
    cases h
  rw [swap_eq hpos hn] at h
  split at h
  · rename_i hswap
    cases h
    exact hswap
  · cases h

theorem setTop?_of_pop? {s₁ : Stack} {old : Word} (hpop : s.pop? = some (old, s₁))
    (hpush : s₁.push? w = some s') : s.setTop? w = some s' := by
  unfold pop? at hpop
  split at hpop
  · rename_i hpos
    cases hpop
    unfold push? at hpush
    split at hpush
    · cases hpush
      unfold setTop?
      rw [dif_pos hpos]
      simp only [Nat.sub_add_cancel hpos]
    · cases hpush
  · cases hpop

theorem follows (s : Stack) : s.UncheckedAgree where
  push _ _ := push?_of_push
  pop _ _ := pop?_of_pop
  peek _ _ _ := peek?_of_peek
  dup _ _ := dup?_of_dup
  swap _ _ := swap?_of_swap
  setTop _ _ _ _ hpop hpush := setTop?_of_pop? (pop?_of_pop hpop) (push?_of_push hpush)

/-! ## One operation -/

/-- What can be asked of a stack. -/
inductive Command where
  | push (w : Word)
  | pushU64 (n : UInt64)
  | pop
  | popU64
  | peek (n : Nat)
  | dup (n : Nat)
  | swap (n : Nat)
  | clear

/-- What a stack answers. -/
inductive Reply where
  | done
  | word (w : Word)
  | amount (n : UInt64)
  deriving DecidableEq

/-- A place in the stack is a 64-bit number that is not the largest one. -/
def Command.InRange : Command → Prop
  | peek n => n < u64Size - 1
  | dup n => n < u64Size - 1
  | swap n => n < u64Size - 1
  | _ => True

/-- What a stack does. -/
def obey : Command → Act Reply
  | .push w => (fun _ => .done) <$> push w
  | .pushU64 n => (fun _ => .done) <$> pushU64 n
  | .pop => .word <$> pop
  | .popU64 => .amount <$> popU64
  | .peek n => .word <$> peek n
  | .dup n => (fun _ => .done) <$> dup n
  | .swap n => (fun _ => .done) <$> swap n
  | .clear => fun s => .ok .done s.clear

/-- A plain list that does not hold a word that is asked for. -/
def missing (words : List Word) : EStateM.Result Failure (List Word) Reply :=
  .error (.fault .stackUnderflow) words

/-- A word in front of a plain list of at most 1024. -/
def consOn (w : Word) (words : List Word) : EStateM.Result Failure (List Word) Reply :=
  if words.length < stackLimit then .ok .done (w :: words)
  else .error (.fault .stackOverflow) words

/-- **What a plain list does**, the top being its head. -/
def onList : Command → EStateM Failure (List Word) Reply
  | .push w, words => consOn w words
  | .pushU64 n, words => consOn (BitVec.ofNat 256 n.toNat) words
  | .pop, w :: rest => .ok (.word w) rest
  | .popU64, w :: rest => .ok (.amount (.ofNat w.toNat)) rest
  | .peek n, words =>
    match words[n]? with
    | some w => .ok (.word w) words
    | none => missing words
  | .dup (k + 1), words =>
    match words[k]? with
    | some w => consOn w words
    | none => missing words
  | .swap (k + 1), top :: rest =>
    match rest[k]? with
    | some w => .ok .done (w :: rest.set k top)
    | none => missing (top :: rest)
  | .clear, _ => .ok .done []
  | _, words => missing words

/-- A result, with the list of the words in place of the stack. -/
def listed {α : Type} : EStateM.Result Failure Stack α → EStateM.Result Failure (List Word) α
  | .ok a s => .ok a s.toList
  | .error e s => .error e s.toList

/-- A 64-bit number keeps the low bits. -/
theorem ofNat_lowU64 (w : Word) : UInt64.ofNat w.lowU64 = .ofNat w.toNat :=
  UInt64.toNat_inj.1 (Nat.mod_mod _ _)

theorem toList_of_pop?_none (h : s.pop? = none) : s.toList = [] := by
  apply List.eq_nil_of_length_eq_zero
  rw [length_toList]
  unfold pop? at h
  split at h
  · cases h
  · rename_i hpos
    exact Nat.eq_zero_of_not_pos hpos

theorem listed_push (w : Word) (s : Stack) :
    listed (((fun _ => .done) <$> push w : Act Reply) s) = consOn w s.toList := by
  unfold consOn
  rw [Act.map_apply, push_eq, length_toList]
  by_cases h : s.height < stackLimit
  · obtain ⟨s', hpush, -⟩ := push?_of_lt w h
    rw [if_pos h, hpush, ← toList_of_push? hpush]
    rfl
  · have hpush : s.push? w = none := dif_neg h
    rw [if_neg h, hpush]
    rfl

theorem listed_swap {k : Nat} (hk : k + 1 < u64Size - 1) (s : Stack) :
    listed (((fun _ => .done) <$> swap (k + 1) : Act Reply) s) = onList (.swap (k + 1)) s.toList := by
  have hroom : k + 1 + 1 < u64Size := by omega
  have hseen := getElem?_toList s (k + 1)
  rw [Act.map_apply, swap_eq (Nat.succ_ne_zero k) hroom]
  by_cases h : k + 1 < s.height
  · obtain ⟨s', hswap, -⟩ := swap?_of_lt h
    obtain ⟨w, hw⟩ := peek?_of_lt h
    rw [hw] at hseen
    cases hl : s.toList with
    | nil =>
        rw [hl] at hseen
        cases hseen
    | cons top rest =>
        rw [hl, List.getElem?_cons_succ] at hseen
        simp only [hswap, onList, hseen, listed, toList_of_swap? hswap hl hseen]
  · have hswap : s.swap? (k + 1) = none := dif_neg h
    have hw : s.peek? (k + 1) = none := dif_neg h
    rw [hw] at hseen
    cases hl : s.toList with
    | nil => simp only [hswap, onList, missing, listed, hl]
    | cons top rest =>
        rw [hl, List.getElem?_cons_succ] at hseen
        simp only [hswap, onList, hseen, missing, listed, hl]

/-- **One operation on a stack is that operation on the list of its words.** -/
theorem obey_onList {c : Command} (hc : c.InRange) (s : Stack) :
    listed (obey c s) = onList c s.toList := by
  cases c with
  | push w => exact listed_push w s
  | pushU64 n => exact listed_push _ s
  | pop =>
      show listed ((_ <$> pop) s) = _
      rw [Act.map_apply, pop_eq]
      cases hpop : s.pop? with
      | some r =>
          rw [toList_of_pop? hpop]
          rfl
      | none =>
          have hnil := toList_of_pop?_none hpop
          simp only [listed, hnil, onList, missing]
  | popU64 =>
      show listed ((_ <$> (_ <$> pop)) s) = _
      rw [Act.map_apply, Act.map_apply, pop_eq]
      cases hpop : s.pop? with
      | some r =>
          rw [toList_of_pop? hpop]
          show EStateM.Result.ok (Reply.amount (.ofNat r.1.lowU64)) _ = _
          rw [ofNat_lowU64]
          rfl
      | none =>
          have hnil := toList_of_pop?_none hpop
          simp only [listed, hnil, onList, missing]
  | peek n =>
      show listed ((_ <$> peek n) s) = _
      rw [Act.map_apply, peek_eq]
      simp only [onList, getElem?_toList]
      cases s.peek? n with
      | some w => rfl
      | none => rfl
  | dup n =>
      cases n with
      | zero => rfl
      | succ k =>
          show listed (((fun _ => Reply.done) <$> dup (k + 1)) s) = _
          rw [Act.map_apply, dup_succ_eq]
          simp only [onList, getElem?_toList]
          cases s.peek? k with
          | some w =>
              have hpush := listed_push w s
              rw [Act.map_apply] at hpush
              exact hpush
          | none => rfl
  | swap n =>
      cases n with
      | zero =>
          show EStateM.Result.error _ s.toList = _
          cases s.toList with
          | nil => rfl
          | cons top rest => rfl
      | succ k => exact listed_swap hc s
  | clear => exact congrArg (EStateM.Result.ok Reply.done) (toList_clear s)

/-- A list that a stack can hold does not outgrow its limit. -/
theorem length_toList_le (s : Stack) : s.toList.length ≤ stackLimit := by
  rw [length_toList]
  exact s.height_le

theorem push_steady (w : Word) : Steady (push w) := by
  intro s e s' h
  rw [push_eq] at h
  split at h <;> cases h
  rfl

theorem pop_steady : Steady pop := by
  intro s e s' h
  rw [pop_eq] at h
  split at h <;> cases h
  rfl

theorem peek_steady (n : Nat) : Steady (peek n) := by
  intro s e s' h
  rw [peek_eq] at h
  split at h <;> cases h
  rfl

theorem dup_steady (n : Nat) : Steady (dup n) := by
  intro s e s' h
  cases n with
  | zero =>
      cases h
      rfl
  | succ k =>
      rw [dup_succ_eq] at h
      split at h
      · exact push_steady _ h
      · cases h
        rfl

theorem swap_steady (n : Nat) : Steady (swap n) := by
  intro s e s' h
  unfold swap at h
  split at h
  · cases h
    rfl
  · split at h
    · cases h
      rfl
    · split at h <;> cases h
      rfl

theorem obey_steady (c : Command) : Steady (obey c) := by
  cases c with
  | push w => exact (push_steady w).map _
  | pushU64 n => exact (push_steady _).map _
  | pop => exact pop_steady.map _
  | popU64 => exact (pop_steady.map _).map _
  | peek n => exact (peek_steady n).map _
  | dup n => exact (dup_steady n).map _
  | swap n => exact (swap_steady n).map _
  | clear =>
      intro s e s' h
      cases h

/-! ## Any number of operations -/

/-- What every operation of a list comes to, and the state after it. -/
def transcript {S : Type} (obey : Command → EStateM Failure S Reply) :
    List Command → S → List (Except Failure Reply × S)
  | [], _ => []
  | c :: cs, s =>
    match obey c s with
    | .ok reply s => (.ok reply, s) :: transcript obey cs s
    | .error e s => (.error e, s) :: transcript obey cs s

theorem transcript_onList {commands : List Command} (h : ∀ c ∈ commands, c.InRange) (s : Stack) :
    (transcript obey commands s).map (Prod.map id toList) = transcript onList commands s.toList := by
  induction commands generalizing s with
  | nil => rfl
  | cons c cs ih =>
      have hstep := obey_onList (h c List.mem_cons_self) s
      have hrest := ih fun c hc => h c (List.mem_cons_of_mem _ hc)
      unfold transcript
      cases hobey : obey c s with
      | ok reply s' =>
          rw [hobey] at hstep
          rw [← hstep]
          exact congrArg _ (hrest s')
      | error e s' =>
          rw [hobey] at hstep
          rw [← hstep]
          exact congrArg _ (hrest s')

/-- What can be seen of a transcript: every result, and the words on the stack after it. -/
def observed (steps : List (Except Failure Reply × Stack)) :
    List (Except Failure Reply × List Word) :=
  steps.map (Prod.map id fun s => s.words.toList)

theorem observed_eq (steps : List (Except Failure Reply × Stack)) :
    observed steps = (steps.map (Prod.map id toList)).map (Prod.map id List.reverse) := by
  unfold observed
  rw [List.map_map]
  apply List.map_congr_left
  intro step _
  show (step.1, step.2.words.toList) = (step.1, step.2.words.toList.reverse.reverse)
  rw [List.reverse_reverse]

theorem observed_transcript {commands : List Command} (h : ∀ c ∈ commands, c.InRange) (s : Stack) :
    observed (transcript obey commands s) =
      (transcript onList commands s.toList).map (Prod.map id List.reverse) := by
  rw [observed_eq, transcript_onList h]

end Stack

/-- **A stack is a list of at most `stackLimit` words.** Any sequence of operations, with any words and
    any places in range, gives on a new stack (`Stack.obey`) the results that it gives on an empty
    list (`Stack.onList`), and after each of them the words on the stack, bottom first, are the list
    from its end. Further, for all stacks, and so for those that such a sequence comes to: an
    operation that fails leaves the stack as it was (`Steady`); stacks that differ in leftover words
    only cannot be told apart by such sequences; and where a checked operation succeeds, the unchecked
    one gives the same result and leaves the same stack (`Stack.UncheckedAgree`). -/
theorem stack_agrees_with_list {commands : List Stack.Command} (h : ∀ c ∈ commands, c.InRange) :
    Stack.observed (Stack.transcript Stack.obey commands .empty) =
        (Stack.transcript Stack.onList commands []).map (Prod.map id List.reverse) ∧
      (∀ step ∈ Stack.transcript Stack.onList commands [], step.2.length ≤ stackLimit) ∧
      (∀ c, Steady (Stack.obey c)) ∧
      (∀ s t : Stack, s.words = t.words →
        Stack.observed (Stack.transcript Stack.obey commands s) =
          Stack.observed (Stack.transcript Stack.obey commands t)) ∧
      ∀ s : Stack, s.UncheckedAgree := by
  refine ⟨?_, ?_, Stack.obey_steady, ?_, Stack.follows⟩
  · rw [Stack.observed_transcript h, Stack.toList_empty]
  · intro step hstep
    rw [← Stack.toList_empty, ← Stack.transcript_onList h] at hstep
    obtain ⟨step', -, rfl⟩ := List.mem_map.1 hstep
    exact step'.2.length_toList_le
  · intro s t hwords
    have hsame : s.toList = t.toList := congrArg (fun words => words.toList.reverse) hwords
    rw [Stack.observed_transcript h, Stack.observed_transcript h, hsame]

/-- A stack is filled, rearranged and emptied, and then asked for the words that its store still
    holds. -/
def leftoverScript : List Stack.Command :=
  [.push 7, .pushU64 9, .dup 2, .swap 1, .pop, .peek 1, .clear, .pop, .dup 1, .swap 1,
    .push 0x10000000000000003, .popU64, .peek 0]

/-- None of them is found. -/
theorem stack_agrees_with_list_leftovers :
    (∀ c ∈ leftoverScript, c.InRange) ∧
      Stack.observed (Stack.transcript Stack.obey leftoverScript .empty) =
        [(.ok .done, [7]), (.ok .done, [7, 9]), (.ok .done, [7, 9, 7]), (.ok .done, [7, 7, 9]),
          (.ok (.word 9), [7, 7]), (.ok (.word 7), [7, 7]), (.ok .done, []),
          (.error (.fault .stackUnderflow), []), (.error (.fault .stackUnderflow), []),
          (.error (.fault .stackUnderflow), []), (.ok .done, [0x10000000000000003]),
          (.ok (.amount 3), []), (.error (.fault .stackUnderflow), [])] := by
  have hrange : ∀ c ∈ leftoverScript, c.InRange := by
    simp [leftoverScript, Stack.Command.InRange]
  exact ⟨hrange, (stack_agrees_with_list hrange).1.trans (by rfl)⟩

end MeteredEvm
