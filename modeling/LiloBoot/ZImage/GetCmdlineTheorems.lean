/-
LiloBoot.ZImage.GetCmdlineTheorems — what the command line editor returns.

A key does to the buffer what the reference editor does to the text (§1). The
editor reads the byte before the buffer when a word is deleted that starts the
line, and a lone ESC makes it take a later `[` for the start of a sequence; of
keys that do neither it returns what the reference editor gives (§2).
-/
import LiloBoot.ZImage.GetCmdline

namespace LiloBoot.ZImage

/-! ## §1 One key -/

section Key

variable {before max c : Nat} {e : Line} {text : List Nat}

/-- The buffer of `max` bytes holds the text, with room for a NUL behind it. -/
structure Line.Holds (max : Nat) (e : Line) (text : List Nat) : Prop where
  size : e.buf.length = max
  room : text.length < max
  len : e.len = text.length
  front : e.buf.take text.length = text
  noNul : 0 ∉ text

/-- Every access is inside the buffer. -/
def Line.Inside (max : Nat) (e : Line) : Prop := ∀ a ∈ e.accesses, 0 ≤ a ∧ a < max

/-- The line is one word from its first column on, and blanks behind it. -/
def LoneWord (text : List Nat) : Prop :=
  (∃ c ∈ text.head?, c ≠ keyBlank) ∧ eraseWord text = []

theorem peek_inside {i : Int} (hlow : 0 ≤ i) (hhigh : i < max) (h : e.Inside max) :
    (e.peek i).Inside max := by
  intro a ha
  rcases List.mem_append.mp ha with ha | ha
  · exact h a ha
  · obtain rfl := List.mem_singleton.mp ha
    exact ⟨hlow, hhigh⟩

theorem delete_inside {n : Nat} (hn : n < max) (h : e.Inside max) : (e.delete n).Inside max :=
  peek_inside (Int.natCast_nonneg n) (by omega) h

theorem Line.Holds.last {t : List Nat} (h : e.Holds max (t ++ [c])) :
    e.buf.getD t.length 0 = c := by
  have hget := congrArg (fun l => l[t.length]?) h.front
  simp only [List.length_append, List.length_singleton, List.getElem?_take,
    Nat.lt_add_one, if_true, List.getElem?_concat_length] at hget
  rw [List.getD_eq_getElem?_getD, hget]
  rfl

theorem Line.Holds.peek (h : e.Holds max text) (i : Int) : (e.peek i).Holds max text :=
  ⟨h.size, h.room, h.len, h.front, h.noNul⟩

/-- The line after its last character is deleted. -/
theorem Line.Holds.delete {t : List Nat} (h : e.Holds max (t ++ [c])) :
    (e.delete t.length).Holds max t := by
  have hroom := h.room
  rw [List.length_append, List.length_singleton] at hroom
  refine ⟨?_, by omega, rfl, ?_, fun h0 => h.noNul (List.mem_append_left _ h0)⟩
  · simp [Line.delete, Line.poke, h.size]
  · have htake := congrArg (List.take t.length) h.front
    rw [List.take_take, List.take_left, Nat.min_eq_left (by simp)] at htake
    rw [Line.delete, Line.poke, List.take_set_of_le (Nat.le_refl _)]
    exact htake

theorem eraseLine_holds (h : e.Holds max text) :
    (eraseLine e text.length).Holds max [] ∧
      (e.Inside max → (eraseLine e text.length).Inside max) := by
  induction text using List.reverseRecOn generalizing e with
  | nil => exact ⟨h, id⟩
  | append_singleton t c ih =>
    have hroom := h.room
    rw [List.length_append, List.length_singleton] at hroom ⊢
    obtain ⟨hholds, hinside⟩ := ih h.delete
    exact ⟨hholds, fun hin => hinside (delete_inside (by omega) hin)⟩

theorem eraseWord_blank (t : List Nat) : eraseWord (t ++ [keyBlank]) = eraseWord t := by
  simp [eraseWord]

/-- A word that ends the line goes up to a blank. -/
theorem eraseWord_word {t : List Nat} (hc : c ≠ keyBlank) :
    eraseWord (t ++ [c]) = t.rdropWhile (· ≠ keyBlank) := by
  simp [eraseWord, hc]

theorem eraseWord_stop {u : List Nat} (hc : c ≠ keyBlank) :
    eraseWord (u ++ [keyBlank] ++ [c]) = u ++ [keyBlank] := by
  rw [eraseWord_word hc, List.rdropWhile_concat_neg _ _ _ (by simp)]

theorem eraseWord_goes_on {u : List Nat} {d : Nat} (hc : c ≠ keyBlank) (hd : d ≠ keyBlank) :
    eraseWord (u ++ [d] ++ [c]) = eraseWord (u ++ [d]) := by
  rw [eraseWord_word hc, eraseWord_word hd, List.rdropWhile_concat_pos _ _ _ (by simpa using hd)]

/-- A lone word stays one with a character behind it, if that goes with it. -/
theorem LoneWord.append {t : List Nat} (h : LoneWord t) (he : eraseWord (t ++ [c]) = eraseWord t) :
    LoneWord (t ++ [c]) := by
  obtain ⟨⟨a, ha, hne⟩, herase⟩ := h
  refine ⟨⟨a, ?_, hne⟩, by rw [he, herase]⟩
  rw [List.head?_append, Option.mem_def.mp ha]
  rfl

/-- The loop deletes what the reference editor deletes; it leaves the buffer
    only if the word starts the line. -/
theorem eraseWordLoop_holds (before : Nat) (h : e.Holds max text) :
    (eraseWordLoop before e text.length).Holds max (eraseWord text) ∧
      (¬ LoneWord text → e.Inside max → (eraseWordLoop before e text.length).Inside max) := by
  induction text using List.reverseRecOn generalizing e with
  | nil => exact ⟨h, fun _ => id⟩
  | append_singleton t c ih =>
    have hroom := h.room
    rw [List.length_append, List.length_singleton] at hroom ⊢
    have hdelete := (h.peek t.length).delete
    have hkeep : e.Inside max → ((e.peek t.length).delete t.length).Inside max :=
      fun hin => delete_inside (by omega) (peek_inside (Int.natCast_nonneg _) (by omega) hin)
    rw [eraseWordLoop, h.last]
    by_cases hc : c = keyBlank
    · subst hc
      obtain ⟨hholds, hinside⟩ := ih hdelete
      rw [eraseWord_blank]
      exact ⟨hholds, fun hlone hin =>
        hinside (fun hword => hlone (hword.append (eraseWord_blank t))) (hkeep hin)⟩
    · simp only [ne_eq, hc, not_false_eq_true, if_true]
      rcases List.eq_nil_or_concat' t with rfl | ⟨u, d, rfl⟩
      · -- The word starts the line: the loop looks at the byte before it.
        have hlone : LoneWord ([] ++ [c]) := ⟨⟨c, rfl, hc⟩, by rw [eraseWord_word hc]; rfl⟩
        rw [eraseWord_word hc]
        refine ⟨?_, fun hnot => absurd hlone hnot⟩
        split
        · exact hdelete.peek _
        · exact hdelete.peek _
      · have hleft : leftOf before ((e.peek (u ++ [d]).length).delete (u ++ [d]).length).buf
            (u ++ [d]).length = d := by
          have hlast := hdelete.last
          rw [leftOf, if_neg (by simp), List.length_append, List.length_singleton,
            Nat.add_sub_cancel]
          rwa [List.length_append, List.length_singleton] at hlast
        have hlook : ∀ e' : Line, e'.Inside max →
            (e'.peek (((u ++ [d]).length : Int) - 1)).Inside max := fun e' hin =>
          peek_inside (by simp) (by omega) hin
        rw [hleft]
        by_cases hd : d = keyBlank
        · subst hd
          rw [if_pos rfl, eraseWord_stop hc]
          exact ⟨hdelete.peek _, fun _ hin => hlook _ (hkeep hin)⟩
        · obtain ⟨hholds, hinside⟩ := ih (hdelete.peek (((u ++ [d]).length : Int) - 1))
          rw [if_neg hd, eraseWord_goes_on hc hd]
          exact ⟨hholds, fun hlone hin => hinside
            (fun hword => hlone (hword.append (eraseWord_goes_on hc hd))) (hlook _ (hkeep hin))⟩

/-- **One key.** -/
theorem editKey_holds (before c : Nat) (h : e.Holds max text) :
    (editKey before (max - 1) c e).Holds max (referenceKey max c text) ∧
      (¬ (isWordErase c ∧ LoneWord text) → e.Inside max →
        (editKey before (max - 1) c e).Inside max) := by
  have hroom := h.room
  rw [editKey, referenceKey, h.len]
  by_cases hback : isBackspace c
  · rw [if_pos hback, if_pos hback]
    rcases List.eq_nil_or_concat' text with rfl | ⟨t, d, rfl⟩
    · exact ⟨h, fun _ => id⟩
    · rw [List.length_append, List.length_singleton] at hroom ⊢
      rw [if_neg (Nat.succ_ne_zero _), Nat.add_sub_cancel, List.dropLast_concat]
      exact ⟨h.delete, fun _ => delete_inside (by omega)⟩
  · rw [if_neg hback, if_neg hback]
    by_cases hline : isLineErase c
    · rw [if_pos hline, if_pos hline]
      exact ⟨(eraseLine_holds h).1, fun _ => (eraseLine_holds h).2⟩
    · rw [if_neg hline, if_neg hline]
      by_cases hword : isWordErase c
      · rw [if_pos hword, if_pos hword]
        obtain ⟨hholds, hinside⟩ := eraseWordLoop_holds before h
        exact ⟨hholds, fun hnot => hinside fun hlone => hnot ⟨hword, hlone⟩⟩
      · rw [if_neg hword, if_neg hword]
        by_cases hprint : keyBlank ≤ c ∧ text.length < max - 1
        · rw [if_pos hprint, if_pos hprint]
          have hsize : text.length < e.buf.length := by rw [h.size]; exact hroom
          refine ⟨⟨?_, ?_, ?_, ?_, ?_⟩, fun _ => peek_inside (Int.natCast_nonneg _) (by exact_mod_cast hroom)⟩
          · simp [Line.poke, h.size]
          · rw [List.length_append, List.length_singleton]
            omega
          · rw [List.length_append, List.length_singleton]
          · simp only [Line.poke, List.length_append, List.length_singleton]
            rw [List.take_add_one, List.take_set_of_le (Nat.le_refl _), h.front,
              List.getElem?_set_self hsize]
            rfl
          · intro h0
            rcases List.mem_append.mp h0 with h0 | h0
            · exact h.noNul h0
            · obtain rfl := List.mem_singleton.mp h0
              exact absurd hprint.1 (by decide)
        · rw [if_neg hprint, if_neg hprint]
          exact ⟨h, fun _ => id⟩

end Key

/-! ## §2 All keys -/

section Keys

variable {before max : Nat} {e : Line} {text keys done : List Nat} {stale : Bool}

/-- No ESC is the last key of a sequence, and while an ESC stands open (`stale`
    for one that no `[` followed) no `[` comes before the next ESC. -/
def EscapesWhole : Bool → List Nat → Prop
  | _, [] => True
  | stale, c :: keys =>
    if isNewline c then True
    else
      match c, keys with
      | 0x1b, 0x5b :: x :: keys => x ≠ keyEscape ∧ EscapesWhole false keys
      | c, keys =>
        if c = keyEscape then EscapesWhole true keys
        else (stale → c ≠ keyBracket) ∧ EscapesWhole stale keys

/-- No key deletes a word that starts the line. -/
def WordsInside (max : Nat) (text done : List Nat) : Prop :=
  ∀ earlier c later, done = earlier ++ c :: later → isWordErase c →
    ¬ LoneWord (referenceKeys max text earlier)

theorem wordsInside_cons {c : Nat} (h : WordsInside max text (c :: done)) :
    ¬ (isWordErase c ∧ LoneWord text) ∧ WordsInside max (referenceKey max c text) done := by
  refine ⟨fun hc => h [] c done rfl hc.1 hc.2, fun earlier d later hsplit => ?_⟩
  exact h (c :: earlier) d later (by rw [hsplit, List.cons_append])

/-- The state of the escape sequence between keys that are acted on. -/
def escapeState (stale : Bool) : Nat := if stale then 1 else 0

/-- A key that is no newline, and does not start a sequence. -/
def Alone (c : Nat) (keys : List Nat) : Prop :=
  ¬ isNewline c ∧ ∀ x keys', c = 0x1b → keys = 0x5b :: x :: keys' → False

theorem acted_newline {c : Nat} (hc : isNewline c) : acted (c :: keys) = some [] := by
  unfold acted
  exact if_pos hc

theorem acted_sequence {x : Nat} : acted (0x1b :: 0x5b :: x :: keys) = acted keys := by
  rw [acted]
  exact if_neg (by decide)

theorem acted_alone {c : Nat} (h : Alone c keys) :
    acted (c :: keys) = (acted keys).map (c :: ·) := by
  rw [acted]
  · exact if_neg h.1
  · exact h.2

theorem escapesWhole_sequence {x : Nat} :
    EscapesWhole stale (0x1b :: 0x5b :: x :: keys) ↔ x ≠ keyEscape ∧ EscapesWhole false keys := by
  rw [EscapesWhole, if_neg (by decide)]

theorem escapesWhole_alone {c : Nat} (h : Alone c keys) :
    EscapesWhole stale (c :: keys) ↔ if c = keyEscape then EscapesWhole true keys
      else (stale → c ≠ keyBracket) ∧ EscapesWhole stale keys := by
  rw [EscapesWhole, if_neg h.1]
  exact h.2

/-- In a state between keys, a key that is neither ESC nor a `[` behind one is
    looked at as usual. -/
theorem editLoop_usual {c : Nat} (hc : c ≠ 0) (hesc : c ≠ keyEscape)
    (hopen : stale → c ≠ keyBracket) :
    editLoop before max (escapeState stale) e (c :: keys) =
      if isNewline c then .returned (e.poke e.len 0)
      else if isAbort c then .aborted
      else editLoop before max (escapeState stale) (editKey before max c e) keys := by
  cases stale with
  | false => simp [editLoop, escapeState, hc, hesc]
  | true => simp [editLoop, escapeState, hc, hesc, hopen rfl]

theorem editLoop_edits (before : Nat) (hacted : acted keys = some done) (hwhole : EscapesWhole stale keys)
    (hkeys : 0 ∉ keys) (habort : ∀ c ∈ done, ¬ isAbort c) (h : e.Holds max text) :
    ∃ e' : Line, editLoop before (max - 1) (escapeState stale) e keys = .returned (e'.poke e'.len 0) ∧
      e'.Holds max (referenceKeys max text done) ∧
      (WordsInside max text done → e.Inside max → e'.Inside max) := by
  induction keys using acted.induct generalizing stale e text done with
  | case1 => cases hacted
  | case2 c keys hnl =>
    rw [acted_newline hnl] at hacted
    cases hacted
    have hc : c ≠ 0 := fun h0 => hkeys (h0 ▸ List.mem_cons_self)
    have hesc : c ≠ keyEscape := by rintro rfl; exact absurd hnl (by decide)
    have hbracket : c ≠ keyBracket := by rintro rfl; exact absurd hnl (by decide)
    refine ⟨e, ?_, h, fun _ => id⟩
    rw [editLoop_usual hc hesc fun _ => hbracket, if_pos hnl]
  | case3 x keys hnl ih =>
    rw [acted_sequence] at hacted
    obtain ⟨hx, hwhole⟩ := escapesWhole_sequence.mp hwhole
    simp only [List.mem_cons, not_or] at hkeys
    obtain ⟨e', hrun, hres⟩ := ih hacted hwhole hkeys.2.2.2 habort h
    refine ⟨e', ?_, hres⟩
    rw [← hrun]
    have hx' : x ≠ 0x1b := hx
    simp [editLoop, keyEscape, keyBracket, escapeState, hx', Ne.symm hkeys.2.2.1]
  | case4 c hnl keys hseq ih =>
    have halone : Alone c keys := ⟨hnl, hseq⟩
    rw [acted_alone halone, Option.map_eq_some_iff] at hacted
    obtain ⟨done', hacted, rfl⟩ := hacted
    rw [escapesWhole_alone halone] at hwhole
    simp only [List.mem_cons, not_or] at hkeys
    by_cases hesc : c = keyEscape
    · rw [if_pos hesc] at hwhole
      subst hesc
      have hsame : referenceKey max keyEscape text = text := by
        simp [referenceKey, keyEscape, keyBlank, isBackspace, isLineErase, isWordErase]
      obtain ⟨e', hrun, hfinal, hin⟩ := ih hacted hwhole hkeys.2
        (fun d hd => habort d (List.mem_cons_of_mem _ hd)) h
      refine ⟨e', ?_, ?_, fun hwords => hin ?_⟩
      · rw [← hrun]
        simp [editLoop, keyEscape, escapeState]
      · rwa [referenceKeys, List.foldl_cons, hsame]
      · exact hsame ▸ (wordsInside_cons hwords).2
    · rw [if_neg hesc] at hwhole
      obtain ⟨hholds, hinside⟩ := editKey_holds before c h
      obtain ⟨e', hrun, hfinal, hin⟩ := ih hacted hwhole.2 hkeys.2
        (fun d hd => habort d (List.mem_cons_of_mem _ hd)) hholds
      refine ⟨e', ?_, hfinal, fun hwords h0 => ?_⟩
      · rw [editLoop_usual (Ne.symm hkeys.1) hesc hwhole.1, if_neg hnl,
          if_neg (habort c List.mem_cons_self), hrun]
      · obtain ⟨hword, hwords⟩ := wordsInside_cons hwords
        exact hin hwords (hinside hword h0)

/-- Where there is no key nothing happens. -/
theorem editLoop_filter (before max escape : Nat) (e : Line) (input : List Nat) :
    editLoop before max escape e input = editLoop before max escape e (input.filter (· ≠ 0)) := by
  induction input generalizing escape e with
  | nil => rfl
  | cons c input ih =>
    by_cases hc : c = 0
    · rw [List.filter_cons_of_neg (by simp [hc]), editLoop, if_pos hc, ih]
    · rw [List.filter_cons_of_pos (by simp [hc]), editLoop, editLoop]
      simp only [if_neg hc, ← ih]

/-- A first key in time leaves all keys to be read. -/
theorem firstKey_filter {n : Nat} {input : List Nat} (h : ∃ c ∈ input.take n, c ≠ 0) :
    firstKey n input ≠ [] ∧ (firstKey n input).filter (· ≠ 0) = input.filter (· ≠ 0) := by
  induction n generalizing input with
  | zero => simp at h
  | succ n ih =>
    cases input with
    | nil => simp at h
    | cons c input =>
      rw [firstKey]
      by_cases hc : c = 0
      · rw [if_neg (not_not.mpr hc), List.filter_cons_of_neg (by simp [hc])]
        exact ih (by simpa [hc] using h)
      · rw [if_pos hc]
        exact ⟨List.cons_ne_nil _ _, rfl⟩

end Keys

section Run

variable {before l max : Nat} {input buf text : List Nat}

/-- What the callers pass: the string in a buffer of `max` bytes, its length,
    and room for its NUL. -/
structure Given (buf : List Nat) (l max : Nat) : Prop where
  size : buf.length = max
  length : (string buf).length = l
  room : l < max

theorem given_holds (h : Given buf l max) (accesses : List Int) :
    (⟨buf, l, accesses⟩ : Line).Holds max (string buf) := by
  refine ⟨h.size, by rw [h.length]; exact h.room, h.length.symm, ?_, ?_⟩
  · exact (List.prefix_iff_eq_take.mp (List.takeWhile_prefix _)).symm
  · intro h0
    simpa using List.mem_takeWhile_imp h0

theorem given_inside (h : Given buf l max) :
    (⟨buf, l, (List.range ((string buf).length + 1)).map Int.ofNat⟩ : Line).Inside max := by
  intro a ha
  obtain ⟨i, hi, rfl⟩ := List.mem_map.mp ha
  have hlt := List.mem_range.mp hi
  rw [h.length] at hlt
  have := h.room
  simp only [Int.ofNat_eq_natCast]
  omega

/-- The NUL that ends the edit makes the text the string of the buffer. -/
theorem holds_string {e : Line} (h : e.Holds max text) : string (e.poke e.len 0).buf = text := by
  have hsize : text.length < e.buf.length := by rw [h.size]; exact h.room
  have hbuf : (e.poke e.len 0).buf = text ++ 0 :: e.buf.drop (text.length + 1) := by
    rw [Line.poke, h.len, List.set_eq_take_append_cons_drop, if_pos hsize, h.front]
  rw [hbuf, string, List.takeWhile_append_of_pos, List.takeWhile_cons_of_neg (by simp),
    List.append_nil]
  intro c hc
  simp only [decide_eq_true_eq, ne_eq]
  rintro rfl
  exact h.noNul hc

/-- **What is returned.** For keys that a newline ends, none of them an abort
    and every escape sequence whole, the editor returns the length and the text
    of the reference editor; if no word that starts the line is deleted, it
    keeps to the buffer. -/
theorem getCmdline_edits {done : List Nat} (hgiven : Given buf l max)
    (hfirst : ∃ c ∈ input.take rounds, c ≠ 0)
    (hdone : acted (input.filter (· ≠ 0)) = some done) (habort : ∀ c ∈ done, ¬ isAbort c)
    (hwhole : EscapesWhole false (input.filter (· ≠ 0))) :
    ∃ e, getCmdline before input buf l max = .returned e ∧
      referenceEdit max (string buf) (input.filter (· ≠ 0)) = some (string e.buf) ∧
      e.len = (string e.buf).length ∧ e.buf.length = max ∧
      (WordsInside max (string buf) done → e.Inside max) := by
  obtain ⟨hsome, hfilter⟩ := firstKey_filter hfirst
  have hnul : 0 ∉ input.filter (· ≠ 0) := by simp
  obtain ⟨e', hrun, hholds, hinside⟩ := editLoop_edits before hdone hwhole hnul habort
    (given_holds hgiven ((List.range ((string buf).length + 1)).map Int.ofNat))
  refine ⟨e'.poke e'.len 0, ?_, ?_, ?_, ?_, fun hwords => ?_⟩
  · rw [getCmdline]
    split
    next hnone => exact absurd hnone hsome
    · rw [editLoop_filter, hfilter]
      exact hrun
  · rw [holds_string hholds, referenceEdit, hdone]
    rfl
  · rw [holds_string hholds]
    exact hholds.len
  · simp [Line.poke, hholds.size]
  · refine peek_inside (Int.natCast_nonneg _) ?_ (hinside hwords (given_inside hgiven))
    rw [hholds.len]
    exact_mod_cast hholds.room

/-- The key `a` and a newline on an empty line with room for one character. -/
theorem letter_typed : ∃ e, getCmdline 0 [0x61, 0x0a] [0, 0] 0 2 = .returned e ∧
    string e.buf = [0x61] ∧ e.len = 1 ∧ e.Inside 2 := by
  obtain ⟨e, hrun, htext, hlen, -, hinside⟩ := @getCmdline_edits 0 0 2 [0x61, 0x0a] [0, 0]
    [0x61] ⟨rfl, rfl, by decide⟩ ⟨0x61, by decide, by decide⟩ rfl (by decide) (by simp [EscapesWhole, isNewline, keyEscape])
  have htext' : string e.buf = [0x61] := by
    rw [show referenceEdit 2 (string [0, 0]) ([0x61, 0x0a].filter (· ≠ 0)) = some [0x61] from rfl]
      at htext
    exact (Option.some.inj htext).symm
  refine ⟨e, hrun, htext', by rw [hlen, htext']; rfl, hinside fun earlier c later hsplit => ?_⟩
  cases earlier with
  | nil =>
    cases hsplit
    exact fun h => absurd h (by decide)
  | cons b earlier => simp at hsplit

/-- ^c leaves the loader, where the reference editor has a line. -/
theorem abort_leaves : getCmdline 0 [0x03, 0x0a] [0, 0] 0 2 = .aborted ∧
    referenceEdit 2 (string [0, 0]) [0x03, 0x0a] = some [] := by decide

-- ^w on a line of one word looks at the byte before the buffer.
example : getCmdline 0x74 [0x61, 0x17, 0x0a] [0, 0] 0 2 =
    .returned ⟨[0, 0], 0, [0, 0, 0, 0, -1, 0]⟩ := by decide

-- After a lone ESC the `[` and the key behind it are lost.
example : referenceEdit 4 [] [0x1b, 0x61, 0x5b, 0x62, 0x0a] = some [0x61, 0x5b, 0x62] ∧
    getCmdline 0 [0x1b, 0x61, 0x5b, 0x62, 0x0a] [0, 0, 0, 0] 0 4 =
      .returned ⟨[0x61, 0, 0, 0], 1, [0, 0, 1]⟩ := by decide

end Run

end LiloBoot.ZImage
