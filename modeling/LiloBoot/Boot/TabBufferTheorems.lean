/-
LiloBoot.Boot.TabBufferTheorems — what the Tab key completes, and what it needs for that.

A pass of `cfg_print_images` looks at the candidates, the names that start
with the characters so far and are short enough. While they agree in the next
character it is appended, so the characters are a common prefix of the
candidates in every round. Where two differ they are printed, and the common
prefix is the longest. The call gets that far without a stray access if two
candidates do differ, if there is a default to compare them with, and if
`tab_completion_len` has been set by a name as long as the result.
-/
import LiloBoot.Boot.TabBuffer
import LiloBoot.Boot.CompletionTheorems
import LiloBoot.Lib.CommonPrefix

namespace LiloBoot.Boot

open LiloBoot.Cfg

/-! ## §1 Checked runs are runs -/

theorem read_eq_some {s : StrAt} {i : Nat} {c : Char} :
    s.read i = some c ↔ i ≤ s.text.length ∧ s.byte i = c := by
  rw [StrAt.read]
  split
  · rename_i hle
    simp [hle]
  · rename_i hle
    simp [hle]

theorem memcmpEq_all {s : StrAt} : ∀ typed i b, s.memcmpEq i typed = some b →
    ((List.range typed.length).all fun j => s.byte (i + j) == typed.getD j '\x00') = b := by
  intro typed
  induction typed with
  | nil =>
    intro i b h
    cases h
    rfl
  | cons c typed ih =>
    intro i b h
    rw [StrAt.memcmpEq] at h
    cases hread : s.read i with
    | none =>
      rw [hread] at h
      cases h
    | some d =>
      rw [hread] at h
      simp only at h
      obtain ⟨-, hbyte⟩ := read_eq_some.mp hread
      rw [List.length_cons, List.range_succ_eq_map, List.all_cons, List.all_map]
      simp only [Nat.add_zero, List.getD_cons_zero, hbyte]
      by_cases heq : d = c
      · rw [if_pos heq] at h
        rw [heq, beq_self_eq_true, Bool.true_and, ← ih (i + 1) b h]
        congr 1
        funext j
        simp only [Function.comp_apply, List.getD_cons_succ]
        rw [Nat.add_assoc, Nat.add_comm 1 j]
      · rw [if_neg heq] at h
        cases h
        rw [beq_eq_false_iff_ne.mpr heq, Bool.false_and]

theorem memcmpEq_startsWith {s : StrAt} {typed : List Char} {b : Bool}
    (h : s.memcmpEq 0 typed = some b) : s.startsWith typed = b := by
  have hall := memcmpEq_all typed 0 b h
  simp only [Nat.zero_add] at hall
  exact hall

section Refine

variable {def_ : Option CStr} {remaining : Nat}

theorem matchName_of_checked {typed : List Char} {followingChar : Option Char} {name : StrAt}
    {p : Pass} {r : Pass × Bool}
    (h : matchNameChecked def_ typed remaining followingChar name p = some r) :
    matchName def_ typed remaining followingChar name p = some r := by
  rw [matchNameChecked] at h
  rw [matchName]
  by_cases hlen : name.text.length < remaining
  · rw [if_pos hlen] at h
    cases hcmp : name.memcmpEq 0 typed with
    | none =>
      rw [hcmp] at h
      cases h
    | some b =>
      rw [hcmp] at h
      have hstarts := memcmpEq_startsWith hcmp
      cases b with
      | false =>
        rw [if_neg (by rw [hstarts]; simp)]
        exact h
      | true =>
        rw [if_pos ⟨hlen, hstarts⟩]
        by_cases hprint : p.printMatchingLabels ≠ 0
        · simp only [hprint, ne_eq, not_false_eq_true, if_true] at h ⊢
          exact h
        · simp only [hprint, if_false] at h ⊢
          cases followingChar with
          | none => exact h
          | some c =>
            cases hread : name.read typed.length with
            | none => simp only [hread] at h; cases h
            | some b =>
              simp only [hread] at h
              rw [(read_eq_some.mp hread).2]
              exact h
  · rw [if_neg hlen] at h
    rw [if_neg fun hboth => hlen hboth.1]
    exact h

theorem matchNames_of_checked {typed : List Char} {followingChar : Option Char}
    (names : List StrAt) : ∀ {p q : Pass},
    matchNamesChecked def_ typed remaining followingChar names p = some q →
    matchNames def_ typed remaining followingChar names p = some q := by
  induction names with
  | nil => exact fun h => h
  | cons name rest ih =>
    intro p q h
    rw [matchNamesChecked] at h
    rw [matchNames]
    cases hname : matchNameChecked def_ typed remaining followingChar name p with
    | none =>
      rw [hname] at h
      cases h
    | some r =>
      obtain ⟨p', broken⟩ := r
      rw [hname] at h
      rw [matchName_of_checked hname]
      cases broken with
      | true => exact h
      | false => exact ih h

theorem completeLoop_of_checked {names : List StrAt} {size room : Nat} (fuel : Nat) :
    ∀ {typed followingChar printing printed r},
    completeLoopChecked def_ names remaining size room fuel typed followingChar printing printed
      = .done r →
    completeLoop def_ names remaining fuel typed followingChar printing printed = .done r := by
  induction fuel with
  | zero =>
    intro typed followingChar printing printed r h
    cases h
  | succ fuel ih =>
    intro typed followingChar printing printed r h
    rw [completeLoopChecked] at h
    rw [completeLoop]
    cases hpass : matchNamesChecked def_ typed remaining followingChar names
        ⟨0, none, printing, printed⟩ with
    | none =>
      rw [hpass] at h
      cases h
    | some p =>
      rw [hpass] at h
      rw [matchNames_of_checked names hpass]
      simp only at h ⊢
      cases hlast : p.lastMatch with
      | none =>
        rw [hlast] at h
        simp only at h ⊢
        split at h
        · rename_i hprint
          rw [if_pos hprint]
          exact ih h
        · rename_i hprint
          rw [if_neg hprint]
          exact h
      | some last =>
        rw [hlast] at h
        simp only at h ⊢
        by_cases hone : p.labelMatchCount = 1
        · rw [if_pos hone] at h ⊢
          split at h
          · exact h
          · cases h
        · rw [if_neg hone] at h ⊢
          by_cases hzero : p.labelMatchCount = 0
          · rw [if_pos hzero] at h ⊢
            exact ih h
          · rw [if_neg hzero] at h ⊢
            split at h
            · cases h
            · cases hread : last.read (typed ++ followingChar.toList).length with
              | none =>
                rw [hread] at h
                cases h
              | some c =>
                rw [hread] at h
                rw [(read_eq_some.mp hread).2]
                exact ih h

end Refine

/-- A call that stays within its memory is a call. -/
theorem cfgPrintImages_of_checked {st : CfgState} {tabBuf : Bool} {mem : Memory} {fuel room : Nat}
    {buf : CStr} {remaining : Nat} {r : CStr × List (CStr × Bool)}
    (h : cfgPrintImagesChecked st tabBuf mem fuel room buf remaining = .done r) :
    cfgPrintImages st tabBuf mem fuel buf remaining = .done r := by
  rw [cfgPrintImagesChecked] at h
  rw [cfgPrintImages]
  split at h
  · rename_i hlong
    rw [if_pos hlong]
    exact h
  · rename_i hlong
    rw [if_neg hlong]
    cases tabBuf with
    | false =>
      simp only [Bool.false_eq_true, if_false, Nat.zero_lt_succ, if_true] at h
      cases h
    | true =>
      have hsize : ¬ st.tabCompletionLen + 2 < buf.length + 1 := by omega
      simp only [if_true, if_neg hsize] at h
      simp only [Bool.not_true, Bool.false_eq_true, if_false]
      by_cases hempty : buf = []
      · rw [if_pos hempty] at h ⊢
        exact h
      · rw [if_neg hempty] at h ⊢
        cases hrun : completeLoopChecked (cfgGetStrgI st.options "default".toList)
            (imageNames mem st.images) remaining (st.tabCompletionLen + 2) room fuel buf none 0 [] with
        | fault =>
          rw [hrun] at h
          cases h
        | running =>
          rw [hrun] at h
          cases h
        | done q =>
          rw [hrun] at h
          rw [completeLoop_of_checked fuel hrun]
          simp only at h ⊢
          split at h
          · exact h
          · cases h

/-! ## §2 One pass -/

/-- The name starts with the characters so far, and is short enough. -/
def Eligible (remaining : Nat) (typed : List Char) (name : StrAt) : Prop :=
  name.text.length < remaining ∧ typed <+: name.text

instance (remaining : Nat) (typed : List Char) (name : StrAt) :
    Decidable (Eligible remaining typed name) :=
  inferInstanceAs (Decidable (_ ∧ _))

/-- The names a pass looks at. -/
def eligible (remaining : Nat) (typed : List Char) (names : List StrAt) : List StrAt :=
  names.filter fun name => Eligible remaining typed name

/-- The name goes on with the character awaited, if there is one. -/
def GoesOn (followingChar : Option Char) (typed : List Char) (name : StrAt) : Prop :=
  ∀ c, followingChar = some c → name.byte typed.length = c

theorem byte_eq (s : StrAt) {i : Nat} (h : i ≤ s.text.length) :
    s.byte i = (s.text[i]?).getD '\x00' := by
  rw [StrAt.byte]
  by_cases hlt : i < s.text.length
  · rw [if_pos hlt, List.getD_eq_getElem?_getD]
  · obtain rfl : i = s.text.length := by omega
    simp

theorem read_byte (s : StrAt) {i : Nat} (h : i ≤ s.text.length) : s.read i = some (s.byte i) :=
  if_pos h

/-- A comparison with characters that are no NUL comes to its end. -/
theorem memcmpEq_start {s : StrAt} (typed : List Char) : ∀ i, i ≤ s.text.length →
    '\x00' ∉ typed → s.memcmpEq i typed = some (decide (typed <+: s.text.drop i)) := by
  induction typed with
  | nil =>
    intro i _ _
    simp [StrAt.memcmpEq]
  | cons c typed ih =>
    intro i hi hnul
    obtain ⟨hc, hnul⟩ := not_or.mp (List.mem_cons.not.mp hnul)
    rw [StrAt.memcmpEq, read_byte s hi, byte_eq s hi]
    simp only
    by_cases hlt : i < s.text.length
    · rw [List.getElem?_eq_getElem hlt, Option.getD_some, List.drop_eq_getElem_cons hlt]
      by_cases heq : s.text[i] = c
      · rw [if_pos heq, ih (i + 1) hlt hnul]
        simp [heq]
      · rw [if_neg heq, eq_comm, Option.some.injEq, decide_eq_false_iff_not]
        rintro ⟨t, ht⟩
        exact heq (List.cons.inj ht).1.symm
    · obtain rfl : i = s.text.length := by omega
      rw [List.getElem?_eq_none (Nat.le_refl _), Option.getD_none, if_neg hc, List.drop_length]
      simp

section Pass

variable {def_ : Option CStr} {remaining : Nat} {typed : List Char} {followingChar : Option Char}
  {name : StrAt} {p : Pass}

theorem memcmpEq_eligible (hnul : '\x00' ∉ typed) (h : Eligible remaining typed name) :
    name.memcmpEq 0 typed = some true := by
  rw [memcmpEq_start typed 0 (Nat.zero_le _) hnul, List.drop_zero, decide_eq_true h.2]

/-- A name that is no candidate changes nothing. -/
theorem matchNameChecked_skip (hnul : '\x00' ∉ typed) (h : ¬ Eligible remaining typed name) :
    matchNameChecked def_ typed remaining followingChar name p = some (p, false) := by
  rw [matchNameChecked]
  split
  · rename_i hlen
    have hno : ¬ typed <+: name.text := fun hpre => h ⟨hlen, hpre⟩
    rw [memcmpEq_start typed 0 (Nat.zero_le _) hnul, List.drop_zero, decide_eq_false hno]
  · rfl

/-- A candidate is printed. -/
theorem matchNameChecked_print (hnul : '\x00' ∉ typed) (h : Eligible remaining typed name)
    (hprint : p.printMatchingLabels ≠ 0) :
    matchNameChecked def_ typed remaining followingChar name p = def_.map fun d =>
      ({ p with
        printMatchingLabels := p.printMatchingLabels + 1
        printed := p.printed ++ [(name.text, d == name.text)] }, false) := by
  rw [matchNameChecked, if_pos h.1, memcmpEq_eligible hnul h]
  simp only [hprint, ne_eq, not_false_eq_true, if_true, printlabel, Option.map_map]
  rfl

/-- A candidate is counted. -/
theorem matchNameChecked_count (hnul : '\x00' ∉ typed) (h : Eligible remaining typed name)
    (hprint : p.printMatchingLabels = 0) (hgo : GoesOn followingChar typed name) :
    matchNameChecked def_ typed remaining followingChar name p = some
      ({ p with
        lastMatch := p.lastMatch.or (some name)
        labelMatchCount := p.labelMatchCount + 1 }, false) := by
  rw [matchNameChecked, if_pos h.1, memcmpEq_eligible hnul h]
  simp only [hprint, ne_eq, not_true_eq_false, if_false]
  cases followingChar with
  | none => rfl
  | some c => simp only [read_byte name h.2.length_le, hgo c rfl, if_true]

/-- A candidate that goes on differently breaks the loop. -/
theorem matchNameChecked_break (hnul : '\x00' ∉ typed) (h : Eligible remaining typed name)
    (hprint : p.printMatchingLabels = 0) (hgo : ¬ GoesOn followingChar typed name) :
    matchNameChecked def_ typed remaining followingChar name p = some
      ({ p with printMatchingLabels := 1, labelMatchCount := 0 }, true) := by
  rw [matchNameChecked, if_pos h.1, memcmpEq_eligible hnul h]
  simp only [hprint, ne_eq, not_true_eq_false, if_false]
  cases followingChar with
  | none => exact absurd (fun c hc => nomatch hc) hgo
  | some c =>
    have hne : name.byte typed.length ≠ c := fun heq => hgo fun c' hc' => by
      cases hc'
      exact heq
    simp only [read_byte name h.2.length_le, hne, if_false]

theorem eligible_cons_pos {rest : List StrAt} (h : Eligible remaining typed name) :
    eligible remaining typed (name :: rest) = name :: eligible remaining typed rest :=
  List.filter_cons_of_pos (decide_eq_true h)

theorem eligible_cons_neg {rest : List StrAt} (h : ¬ Eligible remaining typed name) :
    eligible remaining typed (name :: rest) = eligible remaining typed rest :=
  List.filter_cons_of_neg (by simpa using h)

/-- A pass over candidates that all go on with the character counts them. -/
theorem pass_count (hnul : '\x00' ∉ typed) (names : List StrAt) : ∀ {count last printed},
    (∀ name ∈ eligible remaining typed names, GoesOn followingChar typed name) →
    matchNamesChecked def_ typed remaining followingChar names ⟨count, last, 0, printed⟩
      = some ⟨count + (eligible remaining typed names).length,
          last.or (eligible remaining typed names).head?, 0, printed⟩ := by
  induction names with
  | nil =>
    intro count last printed _
    simp [matchNamesChecked, eligible]
  | cons name rest ih =>
    intro count last printed hgo
    rw [matchNamesChecked]
    by_cases helig : Eligible remaining typed name
    · rw [eligible_cons_pos helig] at hgo ⊢
      rw [matchNameChecked_count hnul helig rfl (hgo name List.mem_cons_self)]
      simp only
      rw [ih fun n hn => hgo n (List.mem_cons_of_mem _ hn), List.length_cons, List.head?_cons,
        Option.or_assoc, Option.some_or, Nat.add_right_comm, ← Nat.add_assoc]
    · rw [eligible_cons_neg helig] at hgo ⊢
      rw [matchNameChecked_skip hnul helig]
      exact ih hgo

/-- A pass with a candidate that goes on differently ends there. -/
theorem pass_break (hnul : '\x00' ∉ typed) (names : List StrAt) : ∀ {p : Pass},
    p.printMatchingLabels = 0 →
    (∃ name ∈ eligible remaining typed names, ¬ GoesOn followingChar typed name) →
    ∃ last, matchNamesChecked def_ typed remaining followingChar names p
      = some ⟨0, last, 1, p.printed⟩ := by
  induction names with
  | nil =>
    rintro p _ ⟨name, hname, -⟩
    exact absurd hname List.not_mem_nil
  | cons name rest ih =>
    intro p hprint hdiff
    rw [matchNamesChecked]
    by_cases helig : Eligible remaining typed name
    · rw [eligible_cons_pos helig] at hdiff
      by_cases hgo : GoesOn followingChar typed name
      · rw [matchNameChecked_count hnul helig hprint hgo]
        obtain ⟨n, hn, hno⟩ := hdiff
        rcases List.mem_cons.mp hn with rfl | hn
        · exact absurd hgo hno
        · exact ih hprint ⟨n, hn, hno⟩
      · rw [matchNameChecked_break hnul helig hprint hgo]
        exact ⟨p.lastMatch, rfl⟩
    · rw [eligible_cons_neg helig] at hdiff
      rw [matchNameChecked_skip hnul helig]
      exact ih hprint hdiff

/-- What a printing pass prints. -/
def printedNames (d : CStr) (names : List StrAt) : List (CStr × Bool) :=
  names.map fun name => (name.text, d == name.text)

theorem pass_print {d : CStr} (hnul : '\x00' ∉ typed) (names : List StrAt) :
    ∀ {count last printing printed}, printing ≠ 0 →
    matchNamesChecked (some d) typed remaining followingChar names ⟨count, last, printing, printed⟩
      = some ⟨count, last, printing + (eligible remaining typed names).length,
          printed ++ printedNames d (eligible remaining typed names)⟩ := by
  induction names with
  | nil =>
    intro count last printing printed _
    simp [matchNamesChecked, eligible, printedNames]
  | cons name rest ih =>
    intro count last printing printed hprint
    rw [matchNamesChecked]
    by_cases helig : Eligible remaining typed name
    · rw [eligible_cons_pos helig, matchNameChecked_print hnul helig hprint]
      simp only [Option.map_some]
      rw [ih (Nat.succ_ne_zero _), List.length_cons, Nat.succ_add, List.append_assoc]
      rfl
    · rw [eligible_cons_neg helig, matchNameChecked_skip hnul helig]
      exact ih hprint

/-- Without a default nothing can be printed. -/
theorem pass_print_none (hnul : '\x00' ∉ typed) (names : List StrAt) : ∀ {p : Pass},
    p.printMatchingLabels ≠ 0 → eligible remaining typed names ≠ [] →
    matchNamesChecked none typed remaining followingChar names p = none := by
  induction names with
  | nil =>
    intro p _ hne
    exact absurd rfl hne
  | cons name rest ih =>
    intro p hprint hne
    rw [matchNamesChecked]
    by_cases helig : Eligible remaining typed name
    · rw [matchNameChecked_print hnul helig hprint]
      rfl
    · rw [eligible_cons_neg helig] at hne
      rw [matchNameChecked_skip hnul helig]
      exact ih hprint hne

end Pass

/-! ## §3 One round -/

section Round

variable {def_ : Option CStr} {names : List StrAt} {remaining size room : Nat} {typed : List Char}
  {printed : List (CStr × Bool)} {first : StrAt} {rest : List StrAt}

theorem goesOn_none (typed : List Char) (name : StrAt) : GoesOn none typed name :=
  fun _ hc => nomatch hc

theorem goesOn_some {c : Char} {name : StrAt} :
    GoesOn (some c) typed name ↔ name.byte typed.length = c :=
  ⟨fun h => h c rfl, fun h _ hc => h.trans (Option.some.inj hc)⟩

/-- No candidate: the characters stay. -/
theorem tabRound_none (hnul : '\x00' ∉ typed) (hnone : eligible remaining typed names = [])
    (fuel : Nat) :
    completeLoopChecked def_ names remaining size room (fuel + 1) typed none 0 printed
      = .done (typed, printed) := by
  rw [completeLoopChecked, pass_count hnul names fun name _ => goesOn_none typed name, hnone]
  rfl

/-- One candidate is completed, with a blank. -/
theorem tabRound_single (hnul : '\x00' ∉ typed) (hone : eligible remaining typed names = [first])
    (fuel : Nat) :
    completeLoopChecked def_ names remaining size room (fuel + 1) typed none 0 printed
      = if first.text.length + 2 ≤ size ∧ first.text.length + 2 ≤ room then
          .done (first.text ++ [' '], printed)
        else .fault := by
  rw [completeLoopChecked, pass_count hnul names fun name _ => goesOn_none typed name, hone]
  rfl

/-- Several candidates: the next character of the first is awaited. -/
theorem tabRound_first (hnul : '\x00' ∉ typed) (hseveral : eligible remaining typed names = first :: rest)
    (hrest : rest ≠ []) (fuel : Nat) :
    completeLoopChecked def_ names remaining size room (fuel + 1) typed none 0 printed
      = completeLoopChecked def_ names remaining size room fuel typed
          (some (first.byte typed.length)) 0 printed := by
  have hmem : first ∈ eligible remaining typed names := by
    rw [hseveral]
    exact List.mem_cons_self
  have helig : Eligible remaining typed first := by simpa using (List.mem_filter.mp hmem).2
  have hpos := List.length_pos_iff.mpr hrest
  rw [completeLoopChecked, pass_count hnul names fun name _ => goesOn_none typed name, hseveral]
  simp only [Nat.zero_add, List.length_cons, Option.none_or, List.head?_cons, Option.isSome_none,
    Bool.false_eq_true, false_and, if_false, Option.toList_none, List.append_nil,
    read_byte first helig.2.length_le]
  rw [if_neg (by omega), if_neg (by omega)]

/-- The candidates agree in the next character. -/
theorem tabRound_go {c : Char} (hnul : '\x00' ∉ typed)
    (hseveral : eligible remaining typed names = first :: rest) (hrest : rest ≠ [])
    (hgo : ∀ name ∈ first :: rest, name.byte typed.length = c) (fuel : Nat) :
    completeLoopChecked def_ names remaining size room (fuel + 1) typed (some c) 0 printed
      = if size < typed.length + 2 then .fault
        else if typed.length + 1 ≤ first.text.length then
          completeLoopChecked def_ names remaining size room fuel (typed ++ [c])
            (some (first.byte (typed.length + 1))) 0 printed
        else .fault := by
  have hpos := List.length_pos_iff.mpr hrest
  rw [completeLoopChecked, pass_count hnul names fun name hname =>
    goesOn_some.mpr (hgo name (hseveral ▸ hname)), hseveral]
  simp only [Nat.zero_add, List.length_cons, Option.none_or, List.head?_cons, Option.isSome_some,
    true_and, Option.toList_some, List.length_append, List.length_nil]
  rw [if_neg (by omega), if_neg (by omega)]
  by_cases hsize : size < typed.length + 2
  · rw [if_pos hsize, if_pos hsize]
  · rw [if_neg hsize, if_neg hsize, StrAt.read]
    by_cases hread : typed.length + 1 ≤ first.text.length
    · rw [if_pos hread, if_pos hread]
    · rw [if_neg hread, if_neg hread]

/-- Two candidates differ in the next character. -/
theorem tabRound_break {c : Char} (hnul : '\x00' ∉ typed)
    (hdiff : ∃ name ∈ eligible remaining typed names, name.byte typed.length ≠ c) (fuel : Nat) :
    completeLoopChecked def_ names remaining size room (fuel + 1) typed (some c) 0 printed
      = completeLoopChecked def_ names remaining size room fuel typed none 1 printed := by
  obtain ⟨name, hname, hne⟩ := hdiff
  obtain ⟨last, hpass⟩ := @pass_break def_ remaining typed (some c) hnul names
    ⟨0, none, 0, printed⟩ rfl ⟨name, hname, fun hgo => hne (goesOn_some.mp hgo)⟩
  rw [completeLoopChecked, hpass]
  cases last with
  | none => rfl
  | some last => rfl

/-- The candidates are printed, and the characters stay. -/
theorem tabRound_print {d : CStr} (hnul : '\x00' ∉ typed)
    (hsome : eligible remaining typed names ≠ []) (fuel : Nat) :
    completeLoopChecked (some d) names remaining size room (fuel + 1) typed none 1 printed
      = .done (typed, printed ++ printedNames d (eligible remaining typed names)) := by
  have hpos := List.length_pos_iff.mpr hsome
  rw [completeLoopChecked, pass_print hnul names Nat.one_ne_zero]
  exact if_neg (show ¬ 1 + (eligible remaining typed names).length = 1 by omega)

theorem tabRound_print_none (hnul : '\x00' ∉ typed) (hsome : eligible remaining typed names ≠ [])
    (fuel : Nat) :
    completeLoopChecked none names remaining size room (fuel + 1) typed none 1 printed = .fault := by
  rw [completeLoopChecked, pass_print_none hnul names Nat.one_ne_zero hsome]

end Round

/-! ## §4 All rounds -/

theorem byte_eq_iff {s : StrAt} {i : Nat} {c : Char} (hi : i ≤ s.text.length) (hc : c ≠ '\x00') :
    s.byte i = c ↔ s.text[i]? = some c := by
  rw [byte_eq s hi]
  cases s.text[i]? with
  | none => simp [Ne.symm hc]
  | some b => simp

/-- A C string has its NUL at its end. -/
theorem byte_eq_nul {s : StrAt} {i : Nat} (hs : '\x00' ∉ s.text) (hi : i ≤ s.text.length) :
    s.byte i = '\x00' ↔ i = s.text.length := by
  rw [byte_eq s hi]
  constructor
  · intro h
    by_contra hne
    have hlt : i < s.text.length := by omega
    rw [List.getElem?_eq_getElem hlt, Option.getD_some] at h
    exact hs (h ▸ List.getElem_mem hlt)
  · intro h
    rw [h, List.getElem?_eq_none (Nat.le_refl _), Option.getD_none]

section Loop

variable {def_ : Option CStr} {names : List StrAt} {remaining size room : Nat}

theorem mem_eligible {typed : List Char} {name : StrAt} :
    name ∈ eligible remaining typed names ↔ name ∈ names ∧ Eligible remaining typed name := by
  simp [eligible]

/-- The characters so far are a common prefix of the candidates. -/
theorem eligible_common (typed : List Char) :
    IsCommonPrefix ((eligible remaining typed names).map StrAt.text) typed := by
  intro text htext
  obtain ⟨name, hname, rfl⟩ := List.mem_map.mp htext
  exact (mem_eligible.mp hname).2.2

/-- A character they all go on with leaves the candidates as they are. -/
theorem eligible_snoc {typed : List Char} {c : Char} (hc : c ≠ '\x00')
    (hgo : ∀ name ∈ eligible remaining typed names, name.byte typed.length = c) :
    eligible remaining (typed ++ [c]) names = eligible remaining typed names := by
  refine List.filter_congr fun name hname => ?_
  rw [decide_eq_decide]
  constructor
  · rintro ⟨hlen, hpre⟩
    exact ⟨hlen, (List.prefix_append typed [c]).trans hpre⟩
  · intro helig
    have hbyte := hgo name (mem_eligible.mpr ⟨hname, helig⟩)
    exact ⟨helig.1, prefix_snoc helig.2 ((byte_eq_iff helig.2.length_le hc).mp hbyte)⟩

/-- Where a candidate goes on differently from the first, the common prefix is the longest. -/
theorem longest_of_differ {typed : List Char} {first : StrAt}
    (hfirst : first ∈ eligible remaining typed names)
    (hdiff : ∃ name ∈ eligible remaining typed names,
      name.byte typed.length ≠ first.byte typed.length) :
    IsLongestCommonPrefix ((eligible remaining typed names).map StrAt.text) typed
      ∧ ∃ name ∈ eligible remaining typed names, name.text ≠ first.text := by
  obtain ⟨name, hname, hne⟩ := hdiff
  have hnext : name.text[typed.length]? ≠ first.text[typed.length]? := by
    intro heq
    rw [byte_eq name (mem_eligible.mp hname).2.2.length_le,
      byte_eq first (mem_eligible.mp hfirst).2.2.length_le, heq] at hne
    exact hne rfl
  refine ⟨(eligible_common typed).isLongest (List.mem_map_of_mem hname)
    (List.mem_map_of_mem hfirst) hnext, name, hname, fun heq => hnext ?_⟩
  rw [heq]

/-- What is done in the end is the longest common prefix, of names that differ. -/
theorem tabLoop_done (hstrings : ∀ name ∈ names, '\x00' ∉ name.text) (fuel : Nat) :
    ∀ {typed : List Char} {first : StrAt} {rest : List StrAt} {printed r}, '\x00' ∉ typed →
    eligible remaining typed names = first :: rest → rest ≠ [] →
    completeLoopChecked def_ names remaining size room fuel typed
      (some (first.byte typed.length)) 0 printed = .done r →
    def_.isSome ∧ (∃ name ∈ eligible remaining typed names, name.text ≠ first.text)
      ∧ IsLongestCommonPrefix ((eligible remaining typed names).map StrAt.text) r.1
      ∧ (r.1 = typed ∨ r.1.length + 1 ≤ size) := by
  induction fuel with
  | zero =>
    intro typed first rest printed r _ _ _ h
    cases h
  | succ fuel ih =>
    intro typed first rest printed r hnul hseveral hrest h
    have hfirst : first ∈ eligible remaining typed names := by
      rw [hseveral]
      exact List.mem_cons_self
    have helig := (mem_eligible.mp hfirst).2
    by_cases hgo : ∀ name ∈ eligible remaining typed names,
        name.byte typed.length = first.byte typed.length
    · rw [tabRound_go hnul hseveral hrest (hseveral ▸ hgo)] at h
      split at h
      · cases h
      · rename_i hsize
        split at h
        · rename_i hread
          -- the character is none behind the first name, so it is no NUL
          have hc : first.byte typed.length ≠ '\x00' := by
            intro hzero
            have := (byte_eq_nul (hstrings first (mem_eligible.mp hfirst).1)
              helig.2.length_le).mp hzero
            omega
          have hsame := eligible_snoc hc hgo
          have hlen : (typed ++ [first.byte typed.length]).length = typed.length + 1 := by simp
          rw [← hlen] at h
          obtain ⟨hdef, hdiff, hlongest, hfits⟩ := ih
            (by simp [hnul, Ne.symm hc]) (hsame.trans hseveral) hrest h
          rw [hsame] at hdiff hlongest
          refine ⟨hdef, hdiff, hlongest, .inr ?_⟩
          rcases hfits with heq | hfits
          · rw [heq, hlen]
            omega
          · exact hfits
        · cases h
    · push_neg at hgo
      obtain ⟨hlongest, hdiff⟩ := longest_of_differ hfirst hgo
      rw [tabRound_break hnul hgo] at h
      have hsome : eligible remaining typed names ≠ [] := List.ne_nil_of_mem hfirst
      cases fuel with
      | zero => cases h
      | succ fuel =>
        cases def_ with
        | none =>
          rw [tabRound_print_none hnul hsome] at h
          cases h
        | some d =>
          rw [tabRound_print hnul hsome] at h
          cases h
          exact ⟨rfl, hdiff, hlongest, .inl rfl⟩

/-- Names that differ do not all go on with the NUL of the first. -/
theorem short_of_go (hstrings : ∀ name ∈ names, '\x00' ∉ name.text) {typed : List Char}
    {first : StrAt} (hfirst : first ∈ eligible remaining typed names)
    (hdiff : ∃ name ∈ eligible remaining typed names, name.text ≠ first.text)
    (hgo : ∀ name ∈ eligible remaining typed names,
      name.byte typed.length = first.byte typed.length) : typed.length < first.text.length := by
  by_contra hlong
  have hwhole : ∀ name ∈ eligible remaining typed names, name.text = typed := by
    intro name hname
    obtain ⟨hin, helig⟩ := mem_eligible.mp hname
    obtain ⟨hin₁, helig₁⟩ := mem_eligible.mp hfirst
    have hzero : first.byte typed.length = '\x00' :=
      (byte_eq_nul (hstrings first hin₁) helig₁.2.length_le).mpr (by
        have := helig₁.2.length_le
        omega)
    have hlen := (byte_eq_nul (hstrings name hin) helig.2.length_le).mp
      ((hgo name hname).trans hzero)
    exact (helig.2.eq_of_length hlen).symm
  obtain ⟨name, hname, hne⟩ := hdiff
  exact hne ((hwhole name hname).trans (hwhole first hfirst).symm)

/-- Where two names differ the loop prints, and is done. -/
theorem tabLoop_breaks {d : CStr} {typed : List Char} {c : Char} {printed : List (CStr × Bool)}
    (hnul : '\x00' ∉ typed)
    (hdiff : ∃ name ∈ eligible remaining typed names, name.byte typed.length ≠ c) (fuel : Nat)
    (hfuel : 2 ≤ fuel) :
    completeLoopChecked (some d) names remaining size room fuel typed (some c) 0 printed
      = .done (typed, printed ++ printedNames d (eligible remaining typed names)) := by
  obtain ⟨fuel, rfl⟩ : ∃ n, fuel = n + 2 := ⟨fuel - 2, by omega⟩
  have hsome : eligible remaining typed names ≠ [] := by
    obtain ⟨name, hname, -⟩ := hdiff
    exact List.ne_nil_of_mem hname
  rw [tabRound_break hnul hdiff, tabRound_print hnul hsome]

/-- With names that differ, a default and a buffer for every common prefix, it comes to an end. -/
theorem tabLoop_ends {d : CStr} (hstrings : ∀ name ∈ names, '\x00' ∉ name.text) (k : Nat) :
    ∀ {typed : List Char} {first : StrAt} {rest : List StrAt} {printed}, '\x00' ∉ typed →
    eligible remaining typed names = first :: rest → rest ≠ [] →
    first.text.length - typed.length ≤ k →
    (∃ name ∈ eligible remaining typed names, name.text ≠ first.text) →
    (∀ q, IsCommonPrefix ((eligible remaining typed names).map StrAt.text) q → q.length + 1 ≤ size) →
    ∃ r, ∀ fuel, k + 2 ≤ fuel → completeLoopChecked (some d) names remaining size room fuel typed
      (some (first.byte typed.length)) 0 printed = .done r := by
  induction k with
  | zero =>
    intro typed first rest printed hnul hseveral _ hk hdiff _
    have hfirst : first ∈ eligible remaining typed names := hseveral ▸ List.mem_cons_self
    refine ⟨_, tabLoop_breaks hnul ?_⟩
    by_contra hgo
    push_neg at hgo
    have := short_of_go hstrings hfirst hdiff hgo
    omega
  | succ k ih =>
    intro typed first rest printed hnul hseveral hrest hk hdiff hsize
    have hfirst : first ∈ eligible remaining typed names := hseveral ▸ List.mem_cons_self
    by_cases hgo : ∀ name ∈ eligible remaining typed names,
        name.byte typed.length = first.byte typed.length
    · have hshort := short_of_go hstrings hfirst hdiff hgo
      have hc : first.byte typed.length ≠ '\x00' := by
        intro hzero
        have := (byte_eq_nul (hstrings first (mem_eligible.mp hfirst).1) (by omega)).mp hzero
        omega
      have hsame := eligible_snoc hc hgo
      have hlen : (typed ++ [first.byte typed.length]).length = typed.length + 1 := by simp
      have hfits : typed.length + 2 ≤ size := by
        have hcommon := @eligible_common names remaining (typed ++ [first.byte typed.length])
        rw [hsame] at hcommon
        have := hsize _ hcommon
        omega
      obtain ⟨r, hr⟩ := @ih (typed ++ [first.byte typed.length]) first rest printed
        (by simp [hnul, Ne.symm hc]) (hsame.trans hseveral) hrest (by omega)
        (by rw [hsame]; exact hdiff) (by rw [hsame]; exact hsize)
      refine ⟨r, fun fuel hfuel => ?_⟩
      obtain ⟨fuel, rfl⟩ : ∃ n, fuel = n + 1 := ⟨fuel - 1, by omega⟩
      rw [tabRound_go hnul hseveral hrest (hseveral ▸ hgo), if_neg (by omega), if_pos (by omega),
        ← hlen]
      exact hr fuel (by omega)
    · push_neg at hgo
      exact ⟨_, fun fuel hfuel => tabLoop_breaks hnul hgo fuel (by omega)⟩

/-- The three ways in which the loop is done. -/
theorem tabLoop_result (hstrings : ∀ name ∈ names, '\x00' ∉ name.text) {buf : CStr}
    (hnul : '\x00' ∉ buf) {fuel : Nat} {r : List Char × List (CStr × Bool)}
    (h : completeLoopChecked def_ names remaining size room fuel buf none 0 [] = .done r) :
    (eligible remaining buf names = [] ∧ r.1 = buf)
      ∨ (∃ first, eligible remaining buf names = [first] ∧ r.1 = first.text ++ [' ']
          ∧ first.text.length + 2 ≤ size)
      ∨ (2 ≤ (eligible remaining buf names).length ∧ def_.isSome
          ∧ (∃ a ∈ eligible remaining buf names, ∃ b ∈ eligible remaining buf names,
              a.text ≠ b.text)
          ∧ IsLongestCommonPrefix ((eligible remaining buf names).map StrAt.text) r.1
          ∧ (r.1 = buf ∨ r.1.length + 1 ≤ size)) := by
  cases fuel with
  | zero => cases h
  | succ fuel =>
    cases hnames : eligible remaining buf names with
    | nil =>
      rw [tabRound_none hnul hnames] at h
      cases h
      exact .inl ⟨rfl, rfl⟩
    | cons first rest =>
      cases rest with
      | nil =>
        rw [tabRound_single hnul hnames] at h
        split at h
        · rename_i hfits
          cases h
          exact .inr (.inl ⟨first, rfl, rfl, hfits.1⟩)
        · cases h
      | cons second rest =>
        have hrest : second :: rest ≠ [] := List.cons_ne_nil _ _
        rw [tabRound_first hnul hnames hrest] at h
        obtain ⟨hdef, ⟨name, hname, hne⟩, hlongest, hfits⟩ :=
          tabLoop_done hstrings fuel hnul hnames hrest h
        rw [hnames] at hname hlongest
        exact .inr (.inr ⟨by simp, hdef, ⟨name, hname, first, List.mem_cons_self, hne⟩, hlongest,
          hfits⟩)

end Loop

/-! ## §5 The whole call -/

/-- The labels and aliases, in the order of the loop. -/
def completionNames (images : List (List Config)) : List CStr :=
  images.flatMap fun table =>
    (cfgGetStrgI table labelName).toList ++ (cfgGetStrgI table aliasName).toList

/-- Those that start with `typed` and are shorter than `remaining`. -/
def candidates (images : List (List Config)) (typed : CStr) (remaining : Nat) : List CStr :=
  (completionNames images).filter fun name => name.length < remaining ∧ typed <+: name

/-- What becomes of the word: nothing, the one candidate and a blank, or what they share. -/
def Completed : List CStr → CStr → CStr → Prop
  | [], buf, after => after = buf
  | [name], _, after => after = name ++ [' ']
  | names, _, after => IsLongestCommonPrefix names after

theorem imageNames_text (mem : Memory) (images : List (List Config)) :
    (imageNames mem images).map StrAt.text = completionNames images := by
  have hsection : ∀ i table, (sectionNames mem i table).map StrAt.text
      = (cfgGetStrgI table labelName).toList ++ (cfgGetStrgI table aliasName).toList := by
    intro i table
    rw [sectionNames, List.map_append]
    cases cfgGetStrgI table labelName with
    | none => cases cfgGetStrgI table aliasName <;> rfl
    | some label => cases cfgGetStrgI table aliasName <;> rfl
  have hfst : images = images.zipIdx.map Prod.fst := (List.zipIdx_map_fst 0 images).symm
  rw [imageNames, List.map_flatMap, completionNames]
  simp only [hsection]
  conv_rhs => rw [hfst, List.flatMap_map]

theorem imageNames_strings {mem : Memory} {images : List (List Config)}
    (h : ∀ name ∈ completionNames images, '\x00' ∉ name) :
    ∀ name ∈ imageNames mem images, '\x00' ∉ name.text := by
  intro name hname
  refine h _ ?_
  rw [← imageNames_text mem]
  exact List.mem_map_of_mem hname

theorem eligible_text (mem : Memory) (images : List (List Config)) (typed : CStr) (remaining : Nat) :
    (eligible remaining typed (imageNames mem images)).map StrAt.text
      = candidates images typed remaining := by
  rw [candidates, ← imageNames_text mem, List.filter_map, eligible]
  rfl

/-- What a call needs: a default to print with, candidates that do not all read the same, and a
`tab_completion_len` for what is completed. -/
structure TabOk (st : CfgState) (buf : CStr) (remaining : Nat) : Prop where
  empty : buf = [] → completionNames st.images ≠ [] →
    (cfgGetStrgI st.options "default".toList).isSome
  single : buf ≠ [] → buf.length ≤ st.tabCompletionLen →
    ∀ name, candidates st.images buf remaining = [name] → name.length ≤ st.tabCompletionLen
  several : buf ≠ [] → buf.length ≤ st.tabCompletionLen →
    2 ≤ (candidates st.images buf remaining).length →
    (cfgGetStrgI st.options "default".toList).isSome
      ∧ (∃ a ∈ candidates st.images buf remaining, ∃ b ∈ candidates st.images buf remaining, a ≠ b)
      ∧ ∀ q, IsCommonPrefix (candidates st.images buf remaining) q →
        q.length ≤ st.tabCompletionLen + 1

theorem tabString_eq {s : CStr} (h : '\x00' ∉ s) : tabString s = s := by
  rw [tabString, List.takeWhile_eq_self_iff]
  intro c hc
  simpa using fun heq : c = '\x00' => h (heq ▸ hc)

/-- A list of two or more is a first and a rest. -/
theorem cons_of_two_le {α : Type} {l : List α} (h : 2 ≤ l.length) :
    ∃ a rest, l = a :: rest ∧ rest ≠ [] := by
  cases l with
  | nil => simp at h
  | cons a rest =>
    refine ⟨a, rest, rfl, fun hnil => ?_⟩
    simp [hnil] at h

section Call

variable {st : CfgState} {mem : Memory} {buf : CStr} {remaining room : Nat}

/-- A call that is done has found what it needs, and completed the word. -/
theorem completed_of_done (hstrings : ∀ name ∈ completionNames st.images, '\x00' ∉ name)
    (hnul : '\x00' ∉ buf) (hbuf : buf ≠ []) (hlen : buf.length ≤ st.tabCompletionLen) {fuel : Nat}
    {r : CStr × List (CStr × Bool)}
    (h : cfgPrintImagesChecked st true mem fuel room buf remaining = .done r) :
    TabOk st buf remaining ∧ Completed (candidates st.images buf remaining) buf r.1
      ∧ '\x00' ∉ r.1 := by
  have hnames := @imageNames_strings mem st.images hstrings
  have htexts := eligible_text mem st.images buf remaining
  rw [cfgPrintImagesChecked, if_neg (by omega)] at h
  simp only [if_true, hbuf, if_false] at h
  rw [if_neg (by omega)] at h
  cases hrun : completeLoopChecked (cfgGetStrgI st.options "default".toList)
      (imageNames mem st.images) remaining (st.tabCompletionLen + 2) room fuel buf none 0 [] with
  | fault => rw [hrun] at h; cases h
  | running => rw [hrun] at h; cases h
  | done q =>
    rw [hrun] at h
    simp only at h
    split at h
    · cases h
      rcases tabLoop_result hnames hnul hrun with ⟨hnone, hq⟩ | ⟨first, hone, hq, hfits⟩ |
        ⟨htwo, hdef, ⟨a, ha, b, hb, hne⟩, hlongest, hfits⟩
      · have hcand : candidates st.images buf remaining = [] := by rw [← htexts, hnone]; rfl
        rw [hq, tabString_eq hnul, hcand]
        exact ⟨⟨fun hempty => absurd hempty hbuf, fun _ _ name hname => (by simp [hcand] at hname),
          fun _ _ htwo => (by simp [hcand] at htwo)⟩, rfl, hnul⟩
      · have hcand : candidates st.images buf remaining = [first.text] := by rw [← htexts, hone]; rfl
        have hfirst : first ∈ eligible remaining buf (imageNames mem st.images) := by
          rw [hone]
          exact List.mem_cons_self
        have hblank : '\x00' ∉ first.text ++ [' '] := by
          have := hnames first (mem_eligible.mp hfirst).1
          simp [this]
        rw [hq, tabString_eq hblank]
        refine ⟨⟨fun hempty => absurd hempty hbuf, fun _ _ name hname => ?_,
          fun _ _ htwo => (by simp [hcand] at htwo)⟩, by rw [hcand]; rfl, hblank⟩
        rw [hcand] at hname
        cases hname
        omega
      · rw [htexts] at hlongest
        have hmem : ∀ name ∈ eligible remaining buf (imageNames mem st.images),
            name.text ∈ candidates st.images buf remaining := by
          intro name hname
          rw [← htexts]
          exact List.mem_map_of_mem hname
        have hclean : '\x00' ∉ q.1 := fun hin =>
          hnames a (mem_eligible.mp ha).1 ((hlongest.common _ (hmem a ha)).subset hin)
        have hlength : 2 ≤ (candidates st.images buf remaining).length := by
          rw [← htexts, List.length_map]
          exact htwo
        rw [tabString_eq hclean]
        refine ⟨⟨fun hempty => absurd hempty hbuf, fun _ _ name hname => ?_, fun _ _ _ =>
          ⟨hdef, ⟨_, hmem a ha, _, hmem b hb, hne⟩, fun p hp => ?_⟩⟩, ?_, hclean⟩
        · simp [hname] at hlength
        · have hle := (hlongest.longest p hp).length_le
          rcases hfits with heq | hfits
          · rw [heq] at hle
            omega
          · omega
        · obtain ⟨first, rest, hcons, hrest⟩ := cons_of_two_le hlength
          obtain ⟨second, rest, rfl⟩ := List.exists_cons_of_ne_nil hrest
          rw [hcons] at hlongest ⊢
          exact hlongest
    · cases h

theorem tabString_length_le (s : List Char) : (tabString s).length ≤ s.length :=
  (List.takeWhile_prefix _).length_le

/-- The loop ends where it has what it needs. -/
theorem tabLoop_ends_of_ok (hstrings : ∀ name ∈ completionNames st.images, '\x00' ∉ name)
    (hnul : '\x00' ∉ buf) (hbuf : buf ≠ []) (hlen : buf.length ≤ st.tabCompletionLen)
    (hroom : remaining < room) (hok : TabOk st buf remaining) : ∃ bound r, ∀ fuel, bound ≤ fuel →
    completeLoopChecked (cfgGetStrgI st.options "default".toList) (imageNames mem st.images)
      remaining (st.tabCompletionLen + 2) room fuel buf none 0 [] = .done r := by
  have hnames := @imageNames_strings mem st.images hstrings
  have htexts := eligible_text mem st.images buf remaining
  cases helig : eligible remaining buf (imageNames mem st.images) with
  | nil =>
    refine ⟨1, (buf, []), fun fuel hfuel => ?_⟩
    obtain ⟨fuel, rfl⟩ : ∃ n, fuel = n + 1 := ⟨fuel - 1, by omega⟩
    exact tabRound_none hnul helig fuel
  | cons first rest =>
    have hfirst : Eligible remaining buf first := by
      refine (@mem_eligible (imageNames mem st.images) remaining buf first |>.mp ?_).2
      rw [helig]
      exact List.mem_cons_self
    rw [helig] at htexts
    by_cases hrest : rest = []
    · subst hrest
      have hfits := hok.single hbuf hlen first.text htexts.symm
      have hshort := hfirst.1
      refine ⟨1, (first.text ++ [' '], []), fun fuel hfuel => ?_⟩
      obtain ⟨fuel, rfl⟩ : ∃ n, fuel = n + 1 := ⟨fuel - 1, by omega⟩
      rw [tabRound_single hnul helig, if_pos ⟨by omega, by omega⟩]
    · have hpos := List.length_pos_iff.mpr hrest
      have htwo : 2 ≤ (candidates st.images buf remaining).length := by
        rw [← htexts, List.length_map, List.length_cons]
        omega
      obtain ⟨hdef, hdiff, hfits⟩ := hok.several hbuf hlen htwo
      obtain ⟨d, hd⟩ := Option.isSome_iff_exists.mp hdef
      rw [← htexts] at hdiff hfits
      have hother : ∃ name ∈ eligible remaining buf (imageNames mem st.images),
          name.text ≠ first.text := by
        rw [helig]
        obtain ⟨a, ha, b, hb, hne⟩ := hdiff
        obtain ⟨na, hna, rfl⟩ := List.mem_map.mp ha
        obtain ⟨nb, hnb, rfl⟩ := List.mem_map.mp hb
        by_cases heq : na.text = first.text
        · exact ⟨nb, hnb, fun heq' => hne (heq.trans heq'.symm)⟩
        · exact ⟨na, hna, heq⟩
      obtain ⟨r, hr⟩ := @tabLoop_ends _ remaining (st.tabCompletionLen + 2) room d hnames
        first.text.length buf first rest [] hnul helig hrest (Nat.sub_le _ _) hother
        (by
          rw [helig]
          intro q hq
          have := hfits q hq
          omega)
      refine ⟨first.text.length + 3, r, fun fuel hfuel => ?_⟩
      obtain ⟨fuel, rfl⟩ : ∃ n, fuel = n + 1 := ⟨fuel - 1, by omega⟩
      rw [hd, tabRound_first hnul helig hrest]
      exact hr fuel (by omega)

/-- What is completed has room in the line. -/
theorem tabLoop_room (hstrings : ∀ name ∈ completionNames st.images, '\x00' ∉ name)
    (hnul : '\x00' ∉ buf) (hroom : remaining < room) (hline : buf.length < room)
    {def_ : Option CStr} {size fuel : Nat} {r : List Char × List (CStr × Bool)}
    (h : completeLoopChecked def_ (imageNames mem st.images) remaining size room fuel buf none 0 []
      = .done r) : (tabString r.1).length + 1 ≤ room := by
  have hnames := @imageNames_strings mem st.images hstrings
  have hle := tabString_length_le r.1
  rcases tabLoop_result hnames hnul h with ⟨-, hr⟩ | ⟨first, hone, hr, -⟩ |
    ⟨-, -, ⟨a, ha, -⟩, hlongest, -⟩
  · rw [hr] at hle ⊢
    omega
  · have hfirst : Eligible remaining buf first := by
      refine (@mem_eligible (imageNames mem st.images) remaining buf first |>.mp ?_).2
      rw [hone]
      exact List.mem_cons_self
    have := hfirst.1
    rw [hr] at hle ⊢
    rw [List.length_append, List.length_singleton] at hle
    omega
  · have hpre := (hlongest.common _ (List.mem_map_of_mem ha)).length_le
    have := (mem_eligible.mp ha).2.1
    omega

/-- The call ends just where it has what it needs. -/
theorem printImages_ends_iff (hstrings : ∀ name ∈ completionNames st.images, '\x00' ∉ name)
    (hnul : '\x00' ∉ buf) (hroom : remaining < room) (hline : buf.length < room) :
    (∃ bound r, ∀ fuel, bound ≤ fuel →
      cfgPrintImagesChecked st true mem fuel room buf remaining = .done r)
      ↔ TabOk st buf remaining := by
  constructor
  · rintro ⟨bound, r, hdone⟩
    have hrun := hdone bound (Nat.le_refl _)
    by_cases hbuf : buf = []
    · subst hbuf
      refine ⟨fun _ hnames => ?_, fun h => absurd rfl h, fun h => absurd rfl h⟩
      by_contra hdef
      rw [Option.not_isSome_iff_eq_none] at hdef
      have hsome : imageNames mem st.images ≠ [] := by
        intro hnil
        rw [← imageNames_text mem, hnil] at hnames
        exact hnames rfl
      obtain ⟨name, rest, hcons⟩ := List.exists_cons_of_ne_nil hsome
      simp only [cfgPrintImagesChecked, hdef, hcons, List.foldlM_cons, printlabel] at hrun
      simp at hrun
    · by_cases hlen : buf.length ≤ st.tabCompletionLen
      · exact (completed_of_done hstrings hnul hbuf hlen hrun).1
      · exact ⟨fun h => absurd h hbuf, fun _ h => absurd h hlen, fun _ h => absurd h hlen⟩
  · intro hok
    by_cases hlen : buf.length ≤ st.tabCompletionLen
    · by_cases hbuf : buf = []
      · subst hbuf
        have hprint : ∃ p, (imageNames mem st.images).foldlM (fun p name =>
            printlabel (cfgGetStrgI st.options "default".toList) name.text p) ⟨0, none, 0, []⟩
              = some p := by
          by_cases hnone : imageNames mem st.images = []
          · exact ⟨⟨0, none, 0, []⟩, by rw [hnone]; rfl⟩
          · have hnames : completionNames st.images ≠ [] := by
              rw [← imageNames_text mem]
              exact fun hnil => hnone (List.map_eq_nil_iff.mp hnil)
            obtain ⟨d, hd⟩ := Option.isSome_iff_exists.mp (hok.empty rfl hnames)
            rw [hd]
            exact Option.ne_none_iff_exists'.mp (foldlM_printlabel _ _)
        obtain ⟨p, hp⟩ := hprint
        refine ⟨0, ([], p.printed), fun fuel _ => ?_⟩
        rw [cfgPrintImagesChecked, if_neg (by simp)]
        simp only [if_true, hp]
        exact if_neg (by simp)
      · obtain ⟨bound, r, hdone⟩ := @tabLoop_ends_of_ok st mem buf remaining room hstrings hnul hbuf
          hlen hroom hok
        refine ⟨bound, (tabString r.1, r.2), fun fuel hfuel => ?_⟩
        have hrun := hdone fuel hfuel
        have hfits := tabLoop_room hstrings hnul hroom hline hrun
        rw [cfgPrintImagesChecked, if_neg (by omega)]
        simp only [if_true, hbuf, if_false]
        rw [if_neg (by omega), hrun]
        exact if_pos hfits
    · exact ⟨0, (buf, []), fun fuel _ => if_pos (by omega)⟩

end Call

end LiloBoot.Boot
