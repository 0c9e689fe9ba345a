/-
LiloBoot.Boot.LineEditTheorems — the buffer of the prompt holds the line of the reference.

`HoldsLine` ties the buffer and `len` to a line: the characters, a NUL behind
them, and room for one more. Each key keeps it, and changes the line as the
reference does. For a Tab this is the completion of `TabKeyTheorems`: a name
is taken only if it is shorter than what remains, so a blank and the NUL fit
behind it, whatever blanks stand before the word.
-/
import LiloBoot.Boot.LineEdit
import LiloBoot.Boot.TabKeyTheorems

namespace LiloBoot.Boot

open LiloBoot.Cfg

/-! ## §1 The buffer -/

/-- The buffer holds the line. -/
structure HoldsLine (e : EditLine) (line : CStr) : Prop where
  len : e.len = line.length
  short : line.length ≤ cmdLeng - 2
  string : '\x00' ∉ line
  buf : ∃ junk, e.buf = line ++ '\x00' :: junk
  size : e.buf.length = cmdLeng

theorem poke_append (front : List Char) (b c : Char) (rest : List Char) :
    poke (front ++ b :: rest) front.length c = some (front ++ c :: rest) := by
  rw [poke, if_pos]
  · simp
  · simp only [List.length_append, List.length_cons]
    omega

theorem copyTo_append (front old new rest : List Char) (h : old.length = new.length) :
    copyTo (front ++ (old ++ rest)) front.length new = some (front ++ (new ++ rest)) := by
  rw [copyTo, if_pos]
  · rw [List.take_left, ← List.drop_drop, List.drop_left, ← h, List.drop_left, List.append_assoc]
  · simp only [List.length_append]
    omega

/-- The line a buffer holds is the string in it. -/
theorem HoldsLine.tabString {e : EditLine} {line : CStr} (h : HoldsLine e line) : tabString e.buf = line := by
  obtain ⟨junk, hbuf⟩ := h.buf
  rw [hbuf, LiloBoot.Boot.tabString, List.takeWhile_append_of_pos, List.takeWhile_cons_of_neg (by simp),
    List.append_nil]
  intro c hc
  simpa using fun heq : c = '\x00' => h.string (heq ▸ hc)

/-- An empty line. -/
theorem holdsLine_nil {buf : List Char} (hsize : buf.length = cmdLeng) (hempty : tabString buf = []) :
    HoldsLine ⟨buf, (tabString buf).length⟩ [] := by
  refine ⟨by rw [hempty], by decide, List.not_mem_nil, ?_, hsize⟩
  cases buf with
  | nil => cases hsize
  | cons c junk =>
    have hc : c = '\x00' := by
      by_contra hne
      rw [LiloBoot.Boot.tabString, List.takeWhile_cons_of_pos (by simpa using hne)] at hempty
      cases hempty
    exact ⟨junk, by rw [hc]; rfl⟩

/-! ## §2 One key -/

section Key

variable {st : CfgState} {tabBuf : Bool} {mem : Memory} {e : EditLine} {line : CStr}

/-- A backspace. -/
theorem holdsLine_backspace (h : HoldsLine e line) {c : Int} (hback : charIsBackspace c = true)
    (htab : charIsTab c = false) :
    ∃ e', HoldsLine e' line.dropLast ∧ ∀ fuel, editKeyAt st tabBuf mem fuel c e = .done e' := by
  simp only [editKeyAt, htab, hback, Bool.false_eq_true, if_false, if_true]
  rcases List.eq_nil_or_concat line with rfl | ⟨front, x, rfl⟩
  · have hlen : ¬ 0 < e.len := by
      rw [h.len]
      decide
    exact ⟨e, h, fun _ => if_neg hlen⟩
  · obtain ⟨junk, hbuf⟩ := h.buf
    obtain ⟨buf, len⟩ := e
    have hlen : len = front.length + 1 := by simpa using h.len
    have hshort := h.short
    have hsize : buf.length = cmdLeng := h.size
    simp only at hbuf
    rw [List.concat_eq_append, List.append_assoc, List.singleton_append] at hbuf
    rw [List.concat_eq_append] at hshort ⊢
    rw [List.length_append, List.length_singleton] at hshort
    refine ⟨⟨front ++ '\x00' :: '\x00' :: junk, front.length⟩, ?_, fun _ => ?_⟩
    · rw [List.dropLast_concat]
      refine ⟨rfl, by omega, fun hin => h.string (by simp [hin]), ⟨'\x00' :: junk, rfl⟩, ?_⟩
      rw [← hsize, hbuf]
      simp
    · rw [if_pos (show (0 : Int) < len by omega), hbuf,
        show len - 1 = ((front.length : Nat) : Int) by omega, poke_append]
      rfl

/-- A printable character. -/
theorem holdsLine_append (h : HoldsLine e line) {c : Int} (hprint : 32 ≤ c ∧ c < 0x7f)
    (hroom : line.length < cmdLeng - 2) :
    ∃ e', HoldsLine e' (line ++ [Char.ofNat c.toNat])
      ∧ ∀ fuel, editKeyAt st tabBuf mem fuel c e = .done e' := by
  obtain ⟨junk, hbuf⟩ := h.buf
  obtain ⟨buf, len⟩ := e
  have hlen : len = line.length := h.len
  have hsize : buf.length = cmdLeng := h.size
  have hleng : cmdLeng = 512 := rfl
  simp only at hbuf
  obtain ⟨j, junk, rfl⟩ : ∃ j rest, junk = j :: rest := by
    cases junk with
    | nil =>
      rw [hbuf, List.length_append, List.length_singleton] at hsize
      omega
    | cons j rest => exact ⟨j, rest, rfl⟩
  have htab : charIsTab c = false := decide_eq_false (by omega)
  have hback : charIsBackspace c = false := by
    rw [charIsBackspace, Bool.or_eq_false_iff]
    exact ⟨decide_eq_false (by omega), decide_eq_false (by omega)⟩
  have hascii : charToAscii c = c := by
    rw [charToAscii, if_neg (by omega), if_neg (by omega)]
  simp only [editKeyAt, htab, hback, hascii, Bool.false_eq_true, if_false]
  refine ⟨⟨line ++ Char.ofNat c.toNat :: '\x00' :: junk, line.length + 1⟩, ?_, fun _ => ?_⟩
  · refine ⟨by simp, by rw [List.length_append, List.length_singleton]; omega, ?_, ⟨junk, by simp⟩,
      ?_⟩
    · rw [List.mem_append, not_or, List.mem_singleton]
      refine ⟨h.string, fun hnul => ?_⟩
      have hval : (Char.ofNat c.toNat).toNat = c.toNat := by
        rw [Char.toNat_ofNat, if_pos]
        left
        omega
      rw [← hnul] at hval
      have hzero : ('\x00' : Char).toNat = 0 := rfl
      omega
    · rw [← hsize, hbuf]
      simp
  · rw [if_pos ⟨by omega, by omega⟩, hbuf, hlen, poke_append, Option.bind_some]
    have hnext := poke_append (line ++ [Char.ofNat c.toNat]) j '\x00' junk
    rw [List.append_assoc, List.length_append] at hnext
    simp only [List.singleton_append, List.length_singleton, List.append_assoc, Nat.cast_add,
      Nat.cast_one] at hnext
    rw [hnext]
    rfl

/-- A key that is no Tab, no backspace and not printable, or finds the line full. -/
theorem editKey_ignored (h : HoldsLine e line) {c : Int} (htab : charIsTab c = false)
    (hback : charIsBackspace c = false)
    (hno : ¬ (32 ≤ c ∧ c < 0x7f ∧ line.length < cmdLeng - 2)) (fuel : Nat) :
    editKeyAt st tabBuf mem fuel c e = .done e := by
  have hleng : cmdLeng = 512 := rfl
  rw [charIsBackspace, Bool.or_eq_false_iff, decide_eq_false_iff_not, decide_eq_false_iff_not]
    at hback
  rw [editKeyAt, if_neg (by simp [htab]), if_neg (by simp [charIsBackspace, hback.1, hback.2])]
  refine if_neg fun hboth => hno ?_
  obtain ⟨hne, hlen⟩ := hboth
  rw [h.len] at hlen
  have hrange : 32 ≤ c ∧ c ≤ 0x7f := by
    rw [charToAscii] at hne
    split at hne
    · exact absurd rfl hne
    · split at hne
      · exact absurd rfl hne
      · omega
  exact ⟨hrange.1, by omega, by omega⟩

end Key

/-! ## §3 A Tab -/

/-- The names of an accepted configuration with a default and distinct names. -/
structure Listed (st : CfgState) : Prop where
  default : (cfgGetStrgI st.options "default".toList).isSome
  distinct : (completionNames st.images).Nodup
  measured : ∀ name ∈ completionNames st.images, name.length ≤ st.tabCompletionLen
  strings : ∀ name ∈ completionNames st.images, '\x00' ∉ name

/-- The reference completes a word to what the code does. -/
theorem completeWord_of_completed {names : List CStr} {buf after : CStr}
    (h : Completed names buf after) : completeWord names buf = after := by
  cases names with
  | nil => exact h.symm
  | cons name names =>
    cases names with
    | nil => exact h.symm
    | cons name' names => exact (commonPrefixes_longest name (name' :: names)).unique h

/-- A completed word is short enough for the line. -/
theorem completed_length {images : List (List Config)} {buf after : CStr} {remaining : Nat}
    (h : Completed (candidates images buf remaining) buf after) :
    after = buf ∨ after.length ≤ remaining := by
  have hcand : ∀ name ∈ candidates images buf remaining,
      name.length < remaining ∧ buf <+: name := by
    intro name hname
    simpa using (List.mem_filter.mp hname).2
  generalize candidates images buf remaining = names at h hcand
  cases names with
  | nil => exact .inl h
  | cons name names =>
    have hshort := (hcand name List.mem_cons_self).1
    cases names with
    | nil =>
      have heq : after = name ++ [' '] := h
      rw [heq, List.length_append, List.length_singleton]
      exact .inr (by omega)
    | cons name' names =>
      have hlongest : IsLongestCommonPrefix (name :: name' :: names) after := h
      have hle := (hlongest.common name List.mem_cons_self).length_le
      exact .inr (by omega)

section Tab

variable {st : CfgState} {mem : Memory} {e : EditLine} {line : CStr}

/-- At an empty line nothing is written. -/
theorem printImages_empty (hst : Listed st) (fuel room remaining : Nat) :
    ∃ printed, cfgPrintImagesChecked st true mem fuel room [] remaining = .done ([], printed) := by
  have hok := tabOk_of_distinct hst.default hst.distinct hst.measured [] 0
  obtain ⟨bound, r, hdone⟩ := (@printImages_ends_iff st mem [] 0 1 hst.strings List.not_mem_nil
    Nat.zero_lt_one Nat.zero_lt_one).mpr hok
  have hrun := hdone bound (Nat.le_refl _)
  have hsize : ¬ st.tabCompletionLen + 2 < 0 + 1 := by omega
  simp only [cfgPrintImagesChecked, List.length_nil, Nat.not_lt_zero, if_false, if_true, hsize]
    at hrun ⊢
  split at hrun
  · cases hrun
  · rename_i p _
    exact ⟨p.printed, rfl⟩

/-- A word that is completed is written behind the blanks, with its NUL. -/
theorem holdsLine_copy {blanks word after : CStr} (h : HoldsLine e (blanks ++ word))
    (hshort : blanks.length + after.length ≤ cmdLeng - 2)
    (hstring : '\x00' ∉ after) :
    ∃ e', written (e.len + ((after.length : Int) - word.length))
        (copyTo e.buf blanks.length (after ++ ['\x00'])) = .done e'
      ∧ HoldsLine e' (blanks ++ after) := by
  obtain ⟨junk, hbuf⟩ := h.buf
  have hsize := h.size
  have hlen := h.len
  have hleng : cmdLeng = 512 := rfl
  rw [List.length_append] at hlen
  let old := (word ++ '\x00' :: junk).take (after.length + 1)
  let rest := (word ++ '\x00' :: junk).drop (after.length + 1)
  have hsplit : e.buf = blanks ++ (old ++ rest) := by
    rw [hbuf, List.append_assoc, List.take_append_drop]
  have hold : old.length = (after ++ ['\x00']).length := by
    rw [hbuf] at hsize
    simp only [old, List.length_take, List.length_append, List.length_cons, List.length_nil]
      at hsize ⊢
    omega
  refine ⟨⟨blanks ++ ((after ++ ['\x00']) ++ rest), e.len + ((after.length : Int) - word.length)⟩,
    ?_, ?_, ?_, ?_, ⟨rest, by simp⟩, ?_⟩
  · rw [hsplit, copyTo_append blanks old (after ++ ['\x00']) rest hold]
    rfl
  · rw [List.length_append]
    simp only
    omega
  · rw [List.length_append]
    exact hshort
  · rw [List.mem_append, not_or]
    exact ⟨fun hin => h.string (List.mem_append_left _ hin), hstring⟩
  · rw [← hsize, hsplit]
    simp only [List.length_append] at hold ⊢
    omega

/-- A Tab completes the line. -/
theorem holdsLine_tab (hst : Listed st) (h : HoldsLine e line) : ∃ bound e',
    HoldsLine e' (completeLine (completionNames st.images) line)
      ∧ ∀ fuel, bound ≤ fuel → tabfuncAt st true mem fuel e = .done e' := by
  by_cases hempty : line = []
  · subst hempty
    refine ⟨0, e, h, fun fuel _ => ?_⟩
    have hlen : e.len = 0 := h.len
    obtain ⟨printed, hprint⟩ := @printImages_empty st mem hst fuel 0 0
    rw [tabfuncAt, if_neg (by omega), hprint]
    simp only [List.length_nil, Nat.cast_zero, Int.add_zero]
  · have hpos := List.length_pos_iff.mpr hempty
    obtain ⟨junk, hbuf⟩ := h.buf
    have hlen := h.len
    have hsize := h.size
    have hshort := h.short
    have hleng : cmdLeng = 512 := rfl
    have htake : e.buf.take e.len.toNat = line := by
      rw [hlen, Int.toNat_natCast, hbuf, List.take_left]
    have hremaining : (cmdLeng - e.len - 1).toNat = cmdLeng - line.length - 1 := by omega
    have hsplit : line.takeWhile (· = ' ') ++ line.dropWhile (· = ' ') = line :=
      List.takeWhile_append_dropWhile
    simp only [tabfuncAt, if_pos (show 0 < e.len by omega),
      if_neg (show ¬ (e.buf.length : Int) < e.len by omega), htake, hremaining, completeLine]
    generalize line.takeWhile (fun c => decide (c = ' ')) = blanks at hsplit ⊢
    generalize line.dropWhile (fun c => decide (c = ' ')) = word at hsplit ⊢
    by_cases hword : word = [] ∨ ' ' ∈ word
    · exact ⟨0, e, by rw [if_pos hword]; exact h, fun fuel _ => if_pos hword⟩
    · simp only [if_neg hword]
      have hne : word ≠ [] := fun hnil => hword (.inl hnil)
      have hwpos := List.length_pos_iff.mpr hne
      have hlinelen : line.length = blanks.length + word.length := by
        rw [← hsplit, List.length_append]
      have hnul : '\x00' ∉ word := fun hin =>
        h.string (by rw [← hsplit]; exact List.mem_append_right _ hin)
      have hok := tabOk_of_distinct hst.default hst.distinct hst.measured word
        (cmdLeng - line.length - 1)
      obtain ⟨bound, r, hdone⟩ := (@printImages_ends_iff st mem word (cmdLeng - line.length - 1)
        (e.buf.length - blanks.length) hst.strings hnul (by omega) (by omega)).mpr hok
      by_cases hlong : st.tabCompletionLen < word.length
      · -- no name is as long as the word
        have hnone : candidates st.images word (cmdLeng - line.length - 1) = [] := by
          refine List.filter_eq_nil_iff.mpr fun name hname hcand => ?_
          have hpre : name.length < cmdLeng - line.length - 1 ∧ word <+: name := by simpa using hcand
          have := hpre.2.length_le
          have := hst.measured name hname
          omega
        rw [candidates] at hnone
        refine ⟨bound, e, by rw [hnone, completeWord, hsplit]; exact h, fun fuel hfuel => ?_⟩
        rw [hdone fuel hfuel]
        exact if_pos hlong
      · obtain ⟨-, hcompleted, hstring⟩ := completed_of_done hst.strings hnul hne (by omega)
          (hdone bound (Nat.le_refl _))
        have hfits : blanks.length + r.1.length ≤ cmdLeng - 2 := by
          rcases completed_length hcompleted with heq | hle
          · rw [heq]
            omega
          · omega
        have hword' := completeWord_of_completed hcompleted
        rw [candidates] at hword'
        obtain ⟨e', hcopy, hholds⟩ := holdsLine_copy (by rw [hsplit]; exact h) hfits hstring
        refine ⟨bound, e', by rw [hword']; exact hholds, fun fuel hfuel => ?_⟩
        rw [hdone fuel hfuel]
        simp only
        rw [if_neg hlong]
        exact hcopy

end Tab

/-! ## §4 All keys -/

section Keys

variable {st : CfgState} {mem : Memory}

/-- One key changes the line as the reference does. -/
theorem holdsLine_key (hst : Listed st) (c : Int) {e : EditLine} {line : CStr}
    (h : HoldsLine e line) : ∃ bound e',
    HoldsLine e' (referenceKey (completionNames st.images) c line)
      ∧ ∀ fuel, bound ≤ fuel → editKeyAt st true mem fuel c e = .done e' := by
  by_cases htab : charIsTab c = true
  · obtain ⟨bound, e', hholds, hdone⟩ := @holdsLine_tab st mem e line hst h
    refine ⟨bound, e', by rw [referenceKey, if_pos htab]; exact hholds, fun fuel hfuel => ?_⟩
    rw [editKeyAt, if_pos htab]
    exact hdone fuel hfuel
  · rw [Bool.not_eq_true] at htab
    by_cases hback : charIsBackspace c = true
    · rw [referenceKey, if_neg (by simp [htab]), if_pos hback]
      obtain ⟨e', hholds, hdone⟩ := @holdsLine_backspace st true mem e line h c hback htab
      exact ⟨0, e', hholds, fun fuel _ => hdone fuel⟩
    · rw [referenceKey, if_neg (by simp [htab]), if_neg hback]
      by_cases hprint : 32 ≤ c ∧ c < 0x7f ∧ line.length < 510
      · rw [if_pos hprint]
        obtain ⟨e', hholds, hdone⟩ := @holdsLine_append st true mem e line h c
          ⟨hprint.1, hprint.2.1⟩ hprint.2.2
        exact ⟨0, e', hholds, fun fuel _ => hdone fuel⟩
      · rw [if_neg hprint]
        exact ⟨0, e, h, fun fuel _ => editKey_ignored h htab (by simpa using hback) hprint fuel⟩

/-- And so do any keys that do not end the loop. -/
theorem holdsLine_keys (hst : Listed st) (keys : List Int) : ∀ {e : EditLine} {line : CStr},
    HoldsLine e line → ∃ bound e',
    HoldsLine e' (keys.foldl (fun line c => referenceKey (completionNames st.images) c line) line)
      ∧ ∀ fuel, bound ≤ fuel → editKeysAt st true mem fuel keys e = .done e' := by
  induction keys with
  | nil => exact fun {e line} h => ⟨0, e, h, fun _ _ => rfl⟩
  | cons c keys ih =>
    intro e line h
    obtain ⟨bound₁, e₁, hholds₁, hdone₁⟩ := @holdsLine_key st mem hst c e line h
    obtain ⟨bound₂, e₂, hholds₂, hdone₂⟩ := ih hholds₁
    refine ⟨max bound₁ bound₂, e₂, hholds₂, fun fuel hfuel => ?_⟩
    rw [editKeysAt, hdone₁ fuel (le_trans (Nat.le_max_left _ _) hfuel)]
    exact hdone₂ fuel (le_trans (Nat.le_max_right _ _) hfuel)

/-- The loop runs through the keys before the newline, and ends the string. -/
theorem bufferEditLoop_newline {tabBuf : Bool} {fuel : Nat} {newline : Int}
    (hnewline : charIsNewline newline = true) (more : List Int) {keys : List Int}
    (hkeys : ∀ c ∈ keys, c ≠ -1 ∧ charIsNewline c = false) : ∀ {e e' : EditLine},
    editKeysAt st tabBuf mem fuel keys e = .done e' → ∀ {line}, HoldsLine e' line →
    bufferEditLoop st tabBuf mem fuel (keys ++ newline :: more) e = .done line := by
  induction keys with
  | nil =>
    intro e e' h line hholds
    cases h
    obtain ⟨junk, hbuf⟩ := hholds.buf
    have hstring := hholds.tabString
    rw [List.nil_append, bufferEditLoop, if_pos (.inr hnewline), hholds.len, hbuf, poke_append]
    rw [hbuf] at hstring
    exact congrArg Called.done hstring
  | cons c keys ih =>
    intro e e' h line hholds
    obtain ⟨hend, hnl⟩ := hkeys c List.mem_cons_self
    rw [List.cons_append, bufferEditLoop, if_neg (by simp [hend, hnl])]
    rw [editKeysAt] at h
    cases hkey : editKeyAt st tabBuf mem fuel c e with
    | fault => rw [hkey] at h; cases h
    | running => rw [hkey] at h; cases h
    | done e₁ =>
      rw [hkey] at h
      exact ih (fun c' hc' => hkeys c' (List.mem_cons_of_mem _ hc')) h hholds

end Keys

/-- `len` is in its range, and the NUL stands at it. -/
structure EditOk (e : EditLine) : Prop where
  len : 0 ≤ e.len ∧ e.len ≤ 510
  size : e.buf.length = 512
  nul : e.buf[e.len.toNat]? = some '\x00'

theorem HoldsLine.editOk {e : EditLine} {line : CStr} (h : HoldsLine e line) : EditOk e := by
  have hlen := h.len
  have hshort := h.short
  have hleng : cmdLeng = 512 := rfl
  obtain ⟨junk, hbuf⟩ := h.buf
  refine ⟨⟨by omega, by omega⟩, h.size, ?_⟩
  rw [hlen, Int.toNat_natCast, hbuf]
  simp

theorem listed_of_items {cpu : Nat} {malloc : Nat → Bool} {tabMalloc : Bool} {items : List Item}
    (hstrings : CStrings items) (hlower : LowerCase items)
    (hdefault : (cfgGetStrgI (cfgParse cpu malloc tabMalloc items).1.options
      "default".toList).isSome)
    (hdistinct : (completionNames (cfgParse cpu malloc tabMalloc items).1.images).Nodup) :
    Listed (cfgParse cpu malloc tabMalloc items).1 where
  default := hdefault
  distinct := hdistinct
  measured := fun _ hname => (completionNames_from hname).length_le hlower
  strings := fun _ hname => (completionNames_from hname).string hstrings

/-- **The prompt returns the line of the reference editor, and on the way to it keeps `len` and
all it writes within the buffer.** -/
theorem bufferEdit_reference (cpu : Nat) (malloc : Nat → Bool) (tabMalloc : Bool)
    (items : List Item) (haccepted : (cfgParse cpu malloc tabMalloc items).2 = true)
    (hstrings : CStrings items) (hlower : LowerCase items)
    (hdefault : (cfgGetStrgI (cfgParse cpu malloc tabMalloc items).1.options
      "default".toList).isSome)
    (hdistinct : (completionNames (cfgParse cpu malloc tabMalloc items).1.images).Nodup)
    (mem : Memory) (buf : List Char) (hsize : buf.length = cmdLeng) (hempty : tabString buf = [])
    (keys : List Int) (hkeys : ∀ c ∈ keys, c ≠ -1 ∧ charIsNewline c = false) (newline : Int)
    (hnewline : charIsNewline newline = true) (more : List Int) :
    (∀ typed, typed <+: keys → ∃ bound e, EditOk e ∧ ∀ fuel, bound ≤ fuel →
        editKeysAt (cfgParse cpu malloc tabMalloc items).1 (cfgParse cpu malloc tabMalloc items).2
          mem fuel typed ⟨buf, (tabString buf).length⟩ = .done e)
      ∧ ∃ bound, ∀ fuel, bound ≤ fuel →
        bufferEditAt (cfgParse cpu malloc tabMalloc items).1 (cfgParse cpu malloc tabMalloc items).2
          mem fuel (keys ++ newline :: more) buf
          = .done (referenceEdit
              (completionNames (cfgParse cpu malloc tabMalloc items).1.images) keys) := by
  have hst := listed_of_items hstrings hlower hdefault hdistinct
  rw [haccepted]
  have hstart := holdsLine_nil hsize hempty
  refine ⟨fun typed _ => ?_, ?_⟩
  · obtain ⟨bound, e, hholds, hdone⟩ := @holdsLine_keys _ mem hst typed _ _ hstart
    exact ⟨bound, e, hholds.editOk, hdone⟩
  · obtain ⟨bound, e, hholds, hdone⟩ := @holdsLine_keys _ mem hst keys _ _ hstart
    exact ⟨bound, fun fuel hfuel =>
      bufferEditLoop_newline hnewline more hkeys (hdone fuel hfuel) hholds⟩

/-- `l`, Tab, a backspace and Return, on the two images of `twoLabelItems`. -/
theorem twoLabels_edited :
    (∀ typed, typed <+: [108, 9, 8] → ∃ bound e, EditOk e ∧ ∀ fuel, bound ≤ fuel →
        editKeysAt (cfgParse 64 (fun _ => true) true twoLabelItems).1
          (cfgParse 64 (fun _ => true) true twoLabelItems).2 (fun _ _ _ => '\x00') fuel typed
          ⟨List.replicate 512 '\x00', (tabString (List.replicate 512 '\x00')).length⟩ = .done e)
      ∧ ∃ bound, ∀ fuel, bound ≤ fuel →
        bufferEditAt (cfgParse 64 (fun _ => true) true twoLabelItems).1
          (cfgParse 64 (fun _ => true) true twoLabelItems).2 (fun _ _ _ => '\x00') fuel
          ([108, 9, 8] ++ [10]) (List.replicate 512 '\x00')
          = .done (referenceEdit (completionNames
              (cfgParse 64 (fun _ => true) true twoLabelItems).1.images) [108, 9, 8]) :=
  bufferEdit_reference 64 (fun _ => true) true twoLabelItems (by decide) (by decide) (by decide)
    (by decide) (by decide) (fun _ _ _ => '\x00') (List.replicate 512 '\x00')
    List.length_replicate rfl [108, 9, 8] (by decide) 10 rfl []

end LiloBoot.Boot
