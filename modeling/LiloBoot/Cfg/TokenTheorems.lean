/-
LiloBoot.Cfg.TokenTheorems — tokens are read back, and parsing ends.

`Before src s l` says that the text from the state `s` on is `l`: the character that
is kept back, if there is one, and what has not been read. Every loop of the
tokenizer is described by what it does to `l`. §3 is the way from an encoded string
back to the string, §5 the end of parsing for every text.
-/
import LiloBoot.Cfg.Token

namespace LiloBoot.Cfg

/-! ## §1 What is left of the text -/

/-- The characters that have not been read. -/
def Source.unread (src : Source) (s : Input) : List Char :=
  (List.range' s.currp (src.endp - s.currp)).map src.buff

/-- No character is kept back, and `l` has not been read. -/
structure At (src : Source) (s : Input) (l : List Char) : Prop where
  back : s.back = none
  inside : s.currp ≤ src.endp
  unread : src.unread s = l

/-- The text from the state on is `l`. -/
structure Before (src : Source) (s : Input) (l : List Char) : Prop where
  inside : s.currp ≤ src.endp
  back : s.back = none ∧ src.unread s = l
    ∨ (∃ c, c ≠ '\x00' ∧ s.back = some (some c) ∧ l = c :: src.unread s)
    ∨ s.back = some none ∧ s.currp = src.endp ∧ l = []

/-- The variables that reading a character leaves alone. -/
structure Same (s s' : Input) : Prop where
  lastToken : s'.lastToken = s.lastToken
  mallocs : s'.mallocs = s.mallocs
  written : s'.written = s.written

theorem Same.refl (s : Input) : Same s s := ⟨rfl, rfl, rfl⟩

theorem Same.trans {s s' s'' : Input} (h : Same s s') (h' : Same s' s'') : Same s s'' :=
  ⟨h'.lastToken.trans h.lastToken, h'.mallocs.trans h.mallocs, h'.written.trans h.written⟩

variable {src : Source} {s : Input} {l r : List Char}

theorem At.before (h : At src s l) : Before src s l := ⟨h.inside, .inl ⟨h.back, h.unread⟩⟩

theorem At.countLine (h : At src s l) : At src (countLine s) l := ⟨h.back, h.inside, h.unread⟩

theorem Before.countLine (h : Before src s l) : Before src (countLine s) l := ⟨h.inside, h.back⟩

theorem same_countLine (s : Input) : Same s (countLine s) := ⟨rfl, rfl, rfl⟩

theorem At.keep (h : At src s l) {c : Char} (hc : c ≠ '\x00') :
    Before src (again (some c) s) (c :: l) :=
  ⟨h.inside, .inr (.inl ⟨c, hc, by simp [again, hc], by rw [← h.unread]; rfl⟩)⟩

theorem At.unread_nil (h : At src s []) : s.currp = src.endp := by
  have hlength := congrArg List.length h.unread
  have hinside := h.inside
  rw [Source.unread, List.length_map, List.length_range', List.length_nil] at hlength
  omega

theorem At.keep_eof (h : At src s []) : Before src (again none s) [] :=
  ⟨h.inside, .inr (.inr ⟨rfl, h.unread_nil, rfl⟩)⟩

theorem same_again (ch : Option Char) (s : Input) : Same s (again ch s) := ⟨rfl, rfl, rfl⟩

/-- `next` reads the first character that is left. -/
theorem Before.next (h : Before src s l) : ∃ s', next src s = (l.head?, s') ∧ At src s' l.tail
    ∧ Same s s' := by
  obtain ⟨hinside, ⟨hback, hunread⟩ | ⟨c, -, hback, rfl⟩ | ⟨hback, hend, rfl⟩⟩ := h
  · rw [LiloBoot.Cfg.next, hback]
    simp only [getc]
    split
    · rename_i hend
      have hnil : l = [] := by
        rw [← hunread, Source.unread, hend, Nat.sub_self]
        rfl
      subst hnil
      exact ⟨s, rfl, ⟨hback, hinside, hunread⟩, Same.refl s⟩
    · rename_i hmore
      have hcons : l = src.buff s.currp :: src.unread { s with currp := s.currp + 1 } := by
        rw [← hunread, Source.unread, show src.endp - s.currp = (src.endp - (s.currp + 1)) + 1 by omega,
          List.range'_succ]
        rfl
      subst hcons
      exact ⟨_, rfl, ⟨hback, by show s.currp + 1 ≤ src.endp; omega, rfl⟩, ⟨rfl, rfl, rfl⟩⟩
  · rw [LiloBoot.Cfg.next, hback]
    exact ⟨_, rfl, ⟨rfl, hinside, rfl⟩, ⟨rfl, rfl, rfl⟩⟩
  · rw [LiloBoot.Cfg.next, hback]
    refine ⟨_, rfl, ⟨rfl, hinside, ?_⟩, ⟨rfl, rfl, rfl⟩⟩
    show (List.range' s.currp (src.endp - s.currp)).map src.buff = []
    rw [hend, Nat.sub_self]
    rfl

theorem Before.next_cons {c : Char} (h : Before src s (c :: r)) :
    ∃ s', LiloBoot.Cfg.next src s = (some c, s') ∧ At src s' r ∧ Same s s' := h.next

/-! ## §2 Blanks and comments -/

/-- Blanks, and comments with their newline. -/
inductive Gap : CStr → Prop where
  | blanks {b : CStr} (blank : ∀ c ∈ b, isBlank c = true) : Gap b
  | comment {b text g : CStr} {nl : Char} (blank : ∀ c ∈ b, isBlank c = true)
      (inner : ∀ c ∈ text, charIsNewline c = false) (newline : charIsNewline nl = true)
      (rest : Gap g) : Gap (b ++ '#' :: (text ++ nl :: g))

theorem skipBlanks_spec {c : Char} (hc : isBlank c = false) (b : CStr) : ∀ {fuel : Nat} {s : Input},
    (∀ x ∈ b, isBlank x = true) → Before src s (b ++ c :: r) → b.length < fuel →
    ∃ s', skipBlanks src fuel s = some (some c, s') ∧ At src s' r ∧ Same s s' := by
  induction b with
  | nil =>
    intro fuel s _ h hfuel
    obtain ⟨fuel, rfl⟩ : ∃ k, fuel = k + 1 := ⟨fuel - 1, by omega⟩
    obtain ⟨s', hnext, hat, hsame⟩ := h.next_cons
    refine ⟨s', ?_, hat, hsame⟩
    simp only [skipBlanks, hnext, hc, Bool.false_eq_true, if_false]
  | cons x b ih =>
    intro fuel s hblank h hfuel
    obtain ⟨fuel, rfl⟩ : ∃ k, fuel = k + 1 := ⟨fuel - 1, by omega⟩
    rw [List.length_cons] at hfuel
    obtain ⟨s', hnext, hat, hsame⟩ := h.next_cons
    have hbefore : Before src (if charIsNewline x = true then countLine s' else s') (b ++ c :: r) := by
      split
      · exact hat.countLine.before
      · exact hat.before
    have hsame' : Same s' (if charIsNewline x = true then countLine s' else s') := by
      split
      · exact same_countLine s'
      · exact Same.refl s'
    obtain ⟨s'', hrun, hat', hsame''⟩ :=
      ih (fun y hy => hblank y (List.mem_cons_of_mem _ hy)) hbefore (show b.length < fuel by omega)
    refine ⟨s'', ?_, hat', hsame.trans (hsame'.trans hsame'')⟩
    simp only [skipBlanks, hnext, hblank x List.mem_cons_self, if_true, hrun]

theorem skipComment_spec {nl : Char} (hnl : charIsNewline nl = true) (text : CStr) :
    ∀ {fuel : Nat} {s : Input}, (∀ x ∈ text, charIsNewline x = false) →
    Before src s (text ++ nl :: r) → text.length < fuel →
    ∃ s', skipComment src fuel s = some (true, s') ∧ At src s' r ∧ Same s s' := by
  induction text with
  | nil =>
    intro fuel s _ h hfuel
    obtain ⟨fuel, rfl⟩ : ∃ k, fuel = k + 1 := ⟨fuel - 1, by omega⟩
    obtain ⟨s', hnext, hat, hsame⟩ := h.next_cons
    refine ⟨s', ?_, hat, hsame⟩
    simp only [skipComment, hnext, hnl, if_true]
  | cons x text ih =>
    intro fuel s hinner h hfuel
    obtain ⟨fuel, rfl⟩ : ∃ k, fuel = k + 1 := ⟨fuel - 1, by omega⟩
    rw [List.length_cons] at hfuel
    obtain ⟨s', hnext, hat, hsame⟩ := h.next_cons
    obtain ⟨s'', hrun, hat', hsame'⟩ :=
      ih (fun y hy => hinner y (List.mem_cons_of_mem _ hy)) hat.before
        (show text.length < fuel by omega)
    refine ⟨s'', ?_, hat', hsame.trans hsame'⟩
    simp only [skipComment, hnext, hinner x List.mem_cons_self, Bool.false_eq_true, if_false, hrun]

/-- Blanks and comments are passed over. -/
theorem skipSpace_spec {g : CStr} (hgap : Gap g) {c : Char} (hblank : isBlank c = false)
    (hc : c ≠ '\x00' ∧ c ≠ '#') : ∀ {fuel : Nat} {s : Input}, Before src s (g ++ c :: r) →
    g.length + 1 < fuel →
    ∃ s', skipSpace src fuel s = some (some c, s') ∧ At src s' r ∧ Same s s' := by
  induction hgap with
  | @blanks b hb =>
    intro fuel s h hfuel
    obtain ⟨fuel, rfl⟩ : ∃ k, fuel = k + 1 := ⟨fuel - 1, by omega⟩
    obtain ⟨s', hrun, hat, hsame⟩ := skipBlanks_spec hblank b hb h (show b.length < fuel by omega)
    refine ⟨s', ?_, hat, hsame⟩
    simp only [skipSpace, hrun]
    rw [if_neg hc.1, if_pos hc.2]
  | @comment b text g nl hb hinner hnl _ ih =>
    intro fuel s h hfuel
    obtain ⟨fuel, rfl⟩ : ∃ k, fuel = k + 1 := ⟨fuel - 1, by omega⟩
    simp only [List.length_append, List.length_cons] at hfuel
    rw [List.append_assoc, List.cons_append, List.append_assoc, List.cons_append] at h
    obtain ⟨s₁, hrun, hat, hsame⟩ :=
      skipBlanks_spec (show isBlank '#' = false from rfl) b hb h (show b.length < fuel by omega)
    obtain ⟨s₂, hcomment, hat, hsame'⟩ :=
      skipComment_spec hnl text hinner hat.before (show text.length < fuel by omega)
    obtain ⟨s₃, hrest, hat, hsame''⟩ := ih hat.countLine.before (show g.length + 1 < fuel by omega)
    refine ⟨s₃, ?_, hat, hsame.trans (hsame'.trans ((same_countLine s₂).trans hsame''))⟩
    simp only [skipSpace, hrun, hcomment, hrest]
    rfl

/-! ## §3 Encoded strings -/

/-- A character inside double quotes. -/
def quoteChar (c : Char) : CStr :=
  if c = '"' ∨ c = '\\' then ['\\', c] else if c = '\n' then ['\\', 'n'] else [c]

/-- A string in double quotes. -/
def quotedForm (s : CStr) : CStr := '"' :: (s.flatMap quoteChar ++ ['"'])

/-- A character without quotes. -/
def bareChar (c : Char) : CStr :=
  if c = ' ' ∨ c = '\r' ∨ c = '=' ∨ c = '#' ∨ c = '\\' ∨ c = '"' then ['\\', c] else [c]

/-- A string without quotes. -/
def bareForm (s : CStr) : CStr := s.flatMap bareChar

/-- A character that has a quoted form. -/
def Quotable (c : Char) : Prop := c ≠ '\x00' ∧ c ≠ '\r'

/-- A character that has a form without quotes. -/
def Bare (c : Char) : Prop := c ≠ '\x00' ∧ c ≠ '\n' ∧ c ≠ '\t'

instance (c : Char) : Decidable (Quotable c) := inferInstanceAs (Decidable (c ≠ '\x00' ∧ c ≠ '\r'))

instance (c : Char) : Decidable (Bare c) :=
  inferInstanceAs (Decidable (c ≠ '\x00' ∧ c ≠ '\n' ∧ c ≠ '\t'))

/-- What may follow a token without quotes. -/
def Separated (r : List Char) : Prop := ∀ c ∈ r.head?, endsToken c = true

theorem quoteChar_ne_nil (c : Char) : quoteChar c ≠ [] := by
  rw [quoteChar]
  split
  · simp
  · split
    · simp
    · simp

theorem length_le_flatMap {f : Char → CStr} (hf : ∀ c, f c ≠ []) (str : CStr) :
    str.length ≤ (str.flatMap f).length := by
  induction str with
  | nil => exact Nat.le_refl 0
  | cons c str ih =>
    have hpos := List.length_pos_of_ne_nil (hf c)
    rw [List.flatMap_cons, List.length_cons, List.length_append]
    omega

theorem quotedLoop_char {c : Char} (hc : c ≠ '\r') {buf : CStr} (hroom : buf.length < maxToken)
    {s : Input} (h : Before src s (quoteChar c ++ r)) (fuel : Nat) :
    ∃ s', quotedLoop src (fuel + 1) buf s = quotedLoop src fuel (buf ++ [c]) s' ∧ At src s' r
      ∧ Same s s' := by
  rw [quotedLoop, if_neg (by omega)]
  rw [quoteChar] at h
  split at h
  · rename_i hescaped
    obtain ⟨s₁, hnext, hat, hsame⟩ := h.next_cons
    obtain ⟨s₂, hnext', hat, hsame'⟩ := hat.before.next_cons
    refine ⟨s₂, ?_, hat, hsame.trans hsame'⟩
    simp only [hnext, hnext', show ('\\' : Char) ≠ '"' by decide, if_false, if_true,
      Bool.or_eq_true, decide_eq_true_eq, hescaped]
  · rename_i hplain
    rw [not_or] at hplain
    split at h
    · rename_i hnewline
      subst hnewline
      obtain ⟨s₁, hnext, hat, hsame⟩ := h.next_cons
      obtain ⟨s₂, hnext', hat, hsame'⟩ := hat.before.next_cons
      refine ⟨s₂, ?_, hat, hsame.trans hsame'⟩
      simp only [hnext, hnext']
      rfl
    · rename_i hnot
      obtain ⟨s₁, hnext, hat, hsame⟩ := h.next_cons
      refine ⟨s₁, ?_, hat, hsame⟩
      simp only [hnext, hplain.1, hplain.2, charIsNewline, hnot, hc, decide_false, Bool.or_self,
        Bool.false_eq_true, if_false]

/-- Inside double quotes, up to the closing one. -/
theorem quotedLoop_spec (str : CStr) : ∀ {fuel : Nat} {buf : CStr} {s : Input},
    (∀ c ∈ str, c ≠ '\r') → Before src s (str.flatMap quoteChar ++ '"' :: r) → str.length < fuel →
    (buf.length + str.length < maxToken →
      ∃ s', quotedLoop src fuel buf s = some (.got (), buf ++ str, s') ∧ At src s' r ∧ Same s s')
    ∧ (maxToken ≤ buf.length + str.length → ∃ buf' s',
      quotedLoop src fuel buf s = some (.error "Quoted string is too long".toList, buf', s')) := by
  induction str with
  | nil =>
    intro fuel buf s _ h hfuel
    obtain ⟨fuel, rfl⟩ : ∃ k, fuel = k + 1 := ⟨fuel - 1, by omega⟩
    refine ⟨fun hroom => ?_, fun hlong => ⟨buf, s, if_pos hlong⟩⟩
    obtain ⟨s', hnext, hat, hsame⟩ := h.next_cons
    refine ⟨s', ?_, hat, hsame⟩
    rw [quotedLoop, if_neg (by rw [List.length_nil] at hroom; omega)]
    simp only [hnext, if_true, List.append_nil]
  | cons c str ih =>
    intro fuel buf s hstr h hfuel
    obtain ⟨fuel, rfl⟩ : ∃ k, fuel = k + 1 := ⟨fuel - 1, by omega⟩
    rw [List.length_cons] at hfuel
    rw [List.flatMap_cons, List.append_assoc] at h
    by_cases hfull : maxToken ≤ buf.length
    · refine ⟨fun hroom => ?_, fun _ => ⟨buf, s, if_pos hfull⟩⟩
      omega
    · obtain ⟨s₁, hstep, hat, hsame⟩ :=
        quotedLoop_char (hstr c List.mem_cons_self) (show buf.length < maxToken by omega) h fuel
      obtain ⟨hfits, hlong⟩ := @ih fuel (buf ++ [c]) s₁
        (fun x hx => hstr x (List.mem_cons_of_mem _ hx)) hat.before (by omega)
      rw [List.length_append, List.length_singleton] at hfits hlong
      rw [List.length_cons, hstep]
      refine ⟨fun hroom => ?_, fun hfull => hlong (by omega)⟩
      obtain ⟨s', hrun, hat', hsame'⟩ := hfits (by omega)
      refine ⟨s', ?_, hat', hsame.trans hsame'⟩
      rw [hrun, List.append_assoc, List.singleton_append]

theorem bareLoop_char {c : Char} (hc : Bare c) {buf : CStr} (hroom : buf.length < maxToken)
    {s : Input} (h : At src s (bareChar c ++ r).tail) (fuel : Nat) :
    ∃ s', bareLoop src (fuel + (bareChar c).length) buf false (bareChar c ++ r).head? s
        = bareLoop src fuel (buf ++ [c]) false r.head? s' ∧ At src s' r.tail ∧ Same s s' := by
  rw [bareChar] at h ⊢
  by_cases hspecial : c = ' ' ∨ c = '\r' ∨ c = '=' ∨ c = '#' ∨ c = '\\' ∨ c = '"'
  · rw [if_pos hspecial] at h ⊢
    obtain ⟨s₁, hnext, hat, hsame⟩ := h.before.next_cons
    obtain ⟨s₂, hnext', hat, hsame'⟩ := hat.before.next
    refine ⟨s₂, ?_, hat, hsame.trans hsame'⟩
    show bareLoop src (fuel + 1 + 1) buf false (some '\\') s = _
    rw [bareLoop, if_neg (by omega)]
    simp only [hnext, show endsToken '\\' = false from rfl, Bool.false_eq_true, if_false, if_true]
    rw [bareLoop, if_neg (by omega)]
    simp only [hc.2.1, charIsTab, hc.2.2, decide_false, Bool.false_eq_true, if_false, if_true,
      hnext']
    rfl
  · rw [if_neg hspecial] at h ⊢
    have hplain := hspecial
    simp only [not_or] at hplain
    obtain ⟨s₁, hnext, hat, hsame⟩ := h.before.next
    refine ⟨s₁, ?_, hat, hsame⟩
    have hends : endsToken c = false := by
      simp [endsToken, isBlank, charIsTab, charIsNewline, hplain, hc.2]
    show bareLoop src (fuel + 1) buf false (some c) s = _
    rw [bareLoop, if_neg (by omega)]
    have hnext : next src s = (r.head?, s₁) := hnext
    simp only [hends, hnext, hplain.2.2.2.2.1, Bool.false_eq_true, if_false]

/-- Without quotes, up to the separator. -/
theorem bareLoop_spec (str : CStr) : ∀ {fuel : Nat} {buf : CStr} {s : Input},
    (∀ c ∈ str, Bare c) → At src s (bareForm str ++ r).tail → (bareForm str).length < fuel →
    (buf.length + str.length < maxToken → Separated r →
      ∃ s', bareLoop src fuel buf false (bareForm str ++ r).head? s = some (.got (), buf ++ str, s')
        ∧ Before src s' r ∧ Same s s')
    ∧ (maxToken ≤ buf.length + str.length → ∃ buf' s',
      bareLoop src fuel buf false (bareForm str ++ r).head? s
        = some (.error "Token is too long".toList, buf', s')) := by
  induction str with
  | nil =>
    intro fuel buf s _ h hfuel
    obtain ⟨fuel, rfl⟩ : ∃ k, fuel = k + 1 := ⟨fuel - 1, by omega⟩
    refine ⟨fun hroom hsep => ?_, fun hlong => ⟨buf, s, if_pos hlong⟩⟩
    have hnot : ¬ maxToken ≤ buf.length := by
      rw [List.length_nil] at hroom
      omega
    rw [List.append_nil]
    cases r with
    | nil => exact ⟨again none s, if_neg hnot, h.keep_eof, same_again none s⟩
    | cons c r =>
      have hends : endsToken c = true := hsep c rfl
      have hnul : c ≠ '\x00' := by
        rintro rfl
        cases hends
      refine ⟨again (some c) s, ?_, h.keep hnul, same_again _ s⟩
      show bareLoop src (fuel + 1) buf false (some c) s = _
      rw [bareLoop, if_neg hnot]
      simp only [hends, Bool.false_eq_true, if_false, if_true]
  | cons c str ih =>
    intro fuel buf s hstr h hfuel
    have hform : bareForm (c :: str) = bareChar c ++ bareForm str := List.flatMap_cons
    rw [hform, List.append_assoc] at h
    rw [hform, List.length_append] at hfuel
    rw [hform, List.append_assoc]
    by_cases hfull : maxToken ≤ buf.length
    · obtain ⟨fuel, rfl⟩ : ∃ k, fuel = k + 1 := ⟨fuel - 1, by omega⟩
      refine ⟨fun hroom => ?_, fun _ => ⟨buf, s, if_pos hfull⟩⟩
      omega
    · obtain ⟨fuel, rfl⟩ : ∃ k, fuel = k + (bareChar c).length :=
        ⟨fuel - (bareChar c).length, by omega⟩
      obtain ⟨s₁, hstep, hat, hsame⟩ :=
        bareLoop_char (hstr c List.mem_cons_self) (show buf.length < maxToken by omega) h fuel
      obtain ⟨hfits, hlong⟩ := @ih fuel (buf ++ [c]) s₁
        (fun x hx => hstr x (List.mem_cons_of_mem _ hx)) hat (by omega)
      rw [List.length_append, List.length_singleton] at hfits hlong
      rw [List.length_cons, hstep]
      refine ⟨fun hroom hsep => ?_, fun hfull => hlong (by omega)⟩
      obtain ⟨s', hrun, hbefore, hsame'⟩ := hfits (by omega) hsep
      refine ⟨s', ?_, hbefore, hsame.trans hsame'⟩
      rw [hrun, List.append_assoc, List.singleton_append]

/-! ## §4 The round trip -/

theorem strdup_spec {str : CStr} (hstr : ∀ c ∈ str, c ≠ '\x00') (hmalloc : src.malloc s.mallocs = true) :
    ∃ s', strdup src str s = (.got str, s') ∧ (∀ l, Before src s l → Before src s' l)
      ∧ s'.lastToken = s.lastToken := by
  have hall : str.takeWhile (· ≠ '\x00') = str :=
    List.takeWhile_eq_self_iff.mpr fun c hc => decide_eq_true (hstr c hc)
  refine ⟨{ s with mallocs := s.mallocs + 1 }, ?_, fun l h => ⟨h.inside, h.back⟩, rfl⟩
  rw [strdup, if_pos hmalloc, hall]

theorem Before.write (h : Before src s l) (n : Nat) : Before src { s with written := n } l :=
  ⟨h.inside, h.back⟩

/-- The first character of a form without quotes begins a token without quotes. -/
theorem bareForm_head {str : CStr} (hne : str ≠ []) (hstr : ∀ c ∈ str, Bare c) :
    ∃ c rest, bareForm str = c :: rest ∧ isBlank c = false ∧ (c ≠ '\x00' ∧ c ≠ '#') ∧ c ≠ '='
      ∧ c ≠ '"' := by
  cases str with
  | nil => exact absurd rfl hne
  | cons c str =>
    have hc := hstr c List.mem_cons_self
    rw [bareForm, List.flatMap_cons, bareChar]
    by_cases hspecial : c = ' ' ∨ c = '\r' ∨ c = '=' ∨ c = '#' ∨ c = '\\' ∨ c = '"'
    · rw [if_pos hspecial]
      exact ⟨_, _, rfl, rfl, by decide, by decide, by decide⟩
    · rw [if_neg hspecial]
      simp only [not_or] at hspecial
      refine ⟨c, _, rfl, ?_, ⟨hc.1, hspecial.2.2.2.1⟩, hspecial.2.2.1, hspecial.2.2.2.2.2⟩
      simp [isBlank, charIsTab, charIsNewline, hspecial, hc.2]

/-- **The token round trip**: behind blanks and comments, a quoted string and a string without
quotes that a separator follows come back from `cfg_get_token`, with what follows them left; from
512 characters on they are errors. -/
theorem cfgGetToken_roundTrip (src : Source) (s : Input) (g : CStr) (hgap : Gap g)
    (hbetween : s.lastToken = none) (hmalloc : src.malloc s.mallocs = true) (str r : CStr)
    (fuel : Nat) :
    ((∀ c ∈ str, Quotable c) → Before src s (g ++ (quotedForm str ++ r)) →
      (g ++ (quotedForm str ++ r)).length + 2 ≤ fuel →
      (str.length ≤ 511 → ∃ s', cfgGetToken src fuel s = some (.got str, s') ∧ Before src s' r
        ∧ s'.lastToken = none)
      ∧ (512 ≤ str.length → ∃ msg s', cfgGetToken src fuel s = some (.error msg, s')))
    ∧ ((∀ c ∈ str, Bare c) → str ≠ [] → Before src s (g ++ (bareForm str ++ r)) →
      (g ++ (bareForm str ++ r)).length + 2 ≤ fuel →
      (str.length ≤ 511 → Separated r → ∃ s', cfgGetToken src fuel s = some (.got str, s')
        ∧ Before src s' r ∧ s'.lastToken = none)
      ∧ (512 ≤ str.length → ∃ msg s', cfgGetToken src fuel s = some (.error msg, s'))) := by
  have hmax : maxToken = 512 := rfl
  -- the end of a token that has been read
  have hfinish : ∀ {s₁ : Input}, (∀ c ∈ str, c ≠ '\x00') → Before src s₁ r → Same s s₁ →
      ∃ s', finishToken src (.got (), str, s₁) = (.got str, s') ∧ Before src s' r
        ∧ s'.lastToken = none := by
    intro s₁ hnul hbefore hsame
    obtain ⟨s', hdup, hkeeps, hlast⟩ := @strdup_spec src
      { s₁ with written := max s₁.written (str.length + 1) } str hnul
      (by rw [← hmalloc, ← hsame.mallocs])
    exact ⟨s', hdup, hkeeps r (hbefore.write _), hlast.trans (hsame.lastToken.trans hbetween)⟩
  constructor
  · intro hstr h hfuel
    rw [quotedForm, List.cons_append] at h hfuel
    have hlength := length_le_flatMap quoteChar_ne_nil str
    simp only [List.length_append, List.length_cons] at hfuel
    obtain ⟨s₁, hskip, hat, hsame⟩ := skipSpace_spec hgap (show isBlank '"' = false from rfl)
      ⟨by decide, by decide⟩ h (show g.length + 1 < fuel by omega)
    have hbody := hat.before
    rw [List.append_assoc] at hbody
    obtain ⟨hfits, hlong⟩ := @quotedLoop_spec src r str fuel [] s₁ (fun c hc => (hstr c hc).2) hbody
      (by omega)
    rw [List.length_nil, Nat.zero_add] at hfits hlong
    simp only [cfgGetToken, hbetween, hskip]
    constructor
    · intro hle
      obtain ⟨s₂, hrun, hat, hsame'⟩ := hfits (by omega)
      obtain ⟨s', hfinished, hrest⟩ := hfinish (fun c hc => (hstr c hc).1) hat.before
        (hsame.trans hsame')
      refine ⟨s', ?_, hrest⟩
      rw [hrun]
      exact congrArg some hfinished
    · intro hge
      obtain ⟨buf, s₂, hrun⟩ := hlong (by omega)
      exact ⟨_, { s₂ with written := max s₂.written buf.length },
        congrArg (Option.map (finishToken src)) hrun⟩
  · intro hstr hne h hfuel
    obtain ⟨c, rest, hform, hblank, hc, heq, hquote⟩ := bareForm_head hne hstr
    obtain ⟨s₁, hskip, hat, hsame⟩ : ∃ s', skipSpace src fuel s = some (some c, s')
        ∧ At src s' (rest ++ r) ∧ Same s s' := by
      rw [hform, List.cons_append] at h
      rw [List.length_append] at hfuel
      exact skipSpace_spec hgap hblank hc h (by omega)
    have hat' : At src s₁ (bareForm str ++ r).tail := by
      rw [hform]
      exact hat
    simp only [List.length_append] at hfuel
    obtain ⟨hfits, hlong⟩ := @bareLoop_spec src r str fuel [] s₁ hstr hat' (by omega)
    rw [List.length_nil, Nat.zero_add, show (bareForm str ++ r).head? = some c by rw [hform]; rfl]
      at hfits hlong
    simp only [cfgGetToken, hbetween, hskip]
    rw [if_neg heq, if_neg hquote]
    constructor
    · intro hle hsep
      obtain ⟨s₂, hrun, hbefore, hsame'⟩ := hfits (by omega) hsep
      obtain ⟨s', hfinished, hrest⟩ := hfinish (fun c hc => (hstr c hc).1) hbefore
        (hsame.trans hsame')
      refine ⟨s', ?_, hrest⟩
      rw [hrun]
      exact congrArg some hfinished
    · intro hge
      obtain ⟨buf, s₂, hrun⟩ := hlong (by omega)
      exact ⟨_, { s₂ with written := max s₂.written buf.length },
        congrArg (Option.map (finishToken src)) hrun⟩

/-- A text in memory, with room for its tokens. -/
def textSource (text : CStr) : Source := ⟨fun i => text.getD i '\x00', text.length, fun _ => true⟩

/-- A comment, the string `a "b` without quotes, and the next token. -/
def bareText : CStr := "# c\n a\\ \\\"b=".toList

/-- The same string in quotes. -/
def quotedText : CStr := "# c\n \"a \\\"b\"=".toList

theorem sampleText_read :
    (∃ s', cfgGetToken (textSource quotedText) 20 inputStart = some (.got "a \"b".toList, s')
      ∧ Before (textSource quotedText) s' ['='] ∧ s'.lastToken = none)
    ∧ ∃ s', cfgGetToken (textSource bareText) 20 inputStart = some (.got "a \"b".toList, s')
      ∧ Before (textSource bareText) s' ['='] ∧ s'.lastToken = none := by
  have hgap : Gap "# c\n ".toList :=
    @Gap.comment [] [' ', 'c'] [' '] '\n' (List.all_eq_true.mp rfl)
      (fun c hc => by
        rcases List.mem_pair.mp hc with rfl | rfl
        · rfl
        · rfl)
      rfl (.blanks (List.all_eq_true.mp rfl))
  have hstr : ∀ c ∈ "a \"b".toList, Quotable c ∧ Bare c := fun c hc =>
    of_decide_eq_true (List.all_eq_true.mp
      (show ("a \"b".toList.all fun c => decide (Quotable c ∧ Bare c)) = true by decide) c hc)
  have hquoted := (cfgGetToken_roundTrip (textSource quotedText) inputStart _ hgap rfl rfl
    "a \"b".toList ['='] 20).1 (fun c hc => (hstr c hc).1)
    ⟨Nat.zero_le _, .inl ⟨rfl, by decide⟩⟩ (by decide)
  have hbare := (cfgGetToken_roundTrip (textSource bareText) inputStart _ hgap rfl rfl
    "a \"b".toList ['='] 20).2 (fun c hc => (hstr c hc).2) (by decide)
    ⟨Nat.zero_le _, .inl ⟨rfl, by decide⟩⟩ (by decide)
  exact ⟨hquoted.1 (by decide), hbare.1 (by decide) fun c hc => by cases hc; rfl⟩

/-! ## §5 Every text -/

/-- The same text, in memories that may differ elsewhere. -/
structure Agree (src src' : Source) : Prop where
  endp : src'.endp = src.endp
  malloc : src'.malloc = src.malloc
  buff : ∀ i < src.endp, src'.buff i = src.buff i

/-- What a loop over a token leaves: at most `n` characters, and a token of at most 512. -/
def Leaves (src : Source) (s : Input) (n : Nat) (out : Read Unit × CStr × Input) : Prop :=
  ∃ l, Before src out.2.2 l ∧ Same s out.2.2 ∧ l.length ≤ n ∧ out.2.1.length ≤ maxToken

theorem Leaves.after {s s₁ : Input} {n m : Nat} {out : Read Unit × CStr × Input}
    (h : Leaves src s₁ n out) (hsame : Same s s₁) (hle : n ≤ m) : Leaves src s m out := by
  obtain ⟨l, hbefore, hsame', hlen, hbuf⟩ := h
  exact ⟨l, hbefore, hsame.trans hsame', Nat.le_trans hlen hle, hbuf⟩

section Ends

variable {src' : Source} (hagree : Agree src src')

include hagree

theorem Before.next_agree (h : Before src s l) : LiloBoot.Cfg.next src' s = LiloBoot.Cfg.next src s := by
  have hinside := h.inside
  rw [LiloBoot.Cfg.next, LiloBoot.Cfg.next]
  cases s.back with
  | some ch => rfl
  | none =>
    simp only [getc, hagree.endp]
    split
    · rfl
    · rw [hagree.buff _ (by omega)]

/-- The loop over blanks ends, and a character behind them has been read. -/
theorem skipBlanks_ends (fuel : Nat) : ∀ {s : Input} {l : List Char}, Before src s l →
    l.length < fuel →
    ∃ ch s' l', skipBlanks src fuel s = some (ch, s') ∧ skipBlanks src' fuel s = some (ch, s')
      ∧ At src s' l' ∧ Same s s' ∧ l'.length ≤ l.length
      ∧ ∀ c, ch = some c → isBlank c = false ∧ l'.length < l.length := by
  induction fuel with
  | zero => exact fun _ h => absurd h (Nat.not_lt_zero _)
  | succ fuel ih =>
    intro s l h hfuel
    have hsource := h.next_agree hagree
    cases l with
    | nil =>
      obtain ⟨s₁, hnext, hat, hsame⟩ := h.next
      refine ⟨none, s₁, [], ?_, ?_, hat, hsame, Nat.le_refl _, fun c hc => by cases hc⟩
      · simp only [skipBlanks, hnext, List.head?_nil]
      · simp only [skipBlanks, hsource, hnext, List.head?_nil]
    | cons c r =>
      obtain ⟨s₁, hnext, hat, hsame⟩ := h.next_cons
      rw [List.length_cons] at hfuel ⊢
      simp only [skipBlanks, hsource, hnext]
      by_cases hblank : isBlank c = true
      · have hbefore : Before src (if charIsNewline c = true then countLine s₁ else s₁) r := by
          split
          · exact hat.countLine.before
          · exact hat.before
        have hsame' : Same s₁ (if charIsNewline c = true then countLine s₁ else s₁) := by
          split
          · exact same_countLine s₁
          · exact Same.refl s₁
        obtain ⟨ch, s₂, l', hrun, hrun', hat', hsame'', hlen, hread⟩ := ih hbefore (by omega)
        rw [if_pos hblank, if_pos hblank]
        exact ⟨ch, s₂, l', hrun, hrun', hat', hsame.trans (hsame'.trans hsame''), by omega,
          fun c hc => ⟨(hread c hc).1, by omega⟩⟩
      · rw [if_neg hblank, if_neg hblank]
        refine ⟨some c, s₁, r, rfl, rfl, hat, hsame, by omega, fun x hx => ?_⟩
        cases hx
        exact ⟨Bool.eq_false_iff.mpr hblank, by omega⟩

theorem skipComment_ends (fuel : Nat) : ∀ {s : Input} {l : List Char}, Before src s l →
    l.length < fuel →
    ∃ closed s' l', skipComment src fuel s = some (closed, s')
      ∧ skipComment src' fuel s = some (closed, s') ∧ At src s' l' ∧ Same s s'
      ∧ l'.length ≤ l.length := by
  induction fuel with
  | zero => exact fun _ h => absurd h (Nat.not_lt_zero _)
  | succ fuel ih =>
    intro s l h hfuel
    have hsource := h.next_agree hagree
    cases l with
    | nil =>
      obtain ⟨s₁, hnext, hat, hsame⟩ := h.next
      refine ⟨false, s₁, [], ?_, ?_, hat, hsame, Nat.le_refl _⟩
      · simp only [skipComment, hnext, List.head?_nil]
      · simp only [skipComment, hsource, hnext, List.head?_nil]
    | cons c r =>
      obtain ⟨s₁, hnext, hat, hsame⟩ := h.next_cons
      rw [List.length_cons] at hfuel ⊢
      simp only [skipComment, hsource, hnext]
      by_cases hnl : charIsNewline c = true
      · rw [if_pos hnl, if_pos hnl]
        exact ⟨true, s₁, r, rfl, rfl, hat, hsame, Nat.le_succ _⟩
      · obtain ⟨closed, s₂, l', hrun, hrun', hat', hsame', hlen⟩ := ih hat.before
          (show r.length < fuel by omega)
        rw [if_neg hnl, if_neg hnl]
        exact ⟨closed, s₂, l', hrun, hrun', hat', hsame.trans hsame', by omega⟩

/-- So does the loop over blanks and comments. -/
theorem skipSpace_ends (fuel : Nat) : ∀ {s : Input} {l : List Char}, Before src s l →
    l.length + 1 < fuel →
    ∃ ch s' l', skipSpace src fuel s = some (ch, s') ∧ skipSpace src' fuel s = some (ch, s')
      ∧ At src s' l' ∧ Same s s' ∧ l'.length ≤ l.length
      ∧ ∀ c, ch = some c → isBlank c = false ∧ c ≠ '#' ∧ l'.length < l.length := by
  induction fuel with
  | zero => exact fun _ h => absurd h (Nat.not_lt_zero _)
  | succ fuel ih =>
    intro s l h hfuel
    obtain ⟨ch, s₁, l₁, hrun, hrun', hat, hsame, hlen, hread⟩ :=
      skipBlanks_ends hagree fuel h (by omega)
    simp only [skipSpace, hrun, hrun']
    cases ch with
    | none => exact ⟨none, s₁, l₁, rfl, rfl, hat, hsame, hlen, fun c hc => by cases hc⟩
    | some c =>
      obtain ⟨hblank, hshort⟩ := hread c rfl
      by_cases hnul : c = '\x00'
      · simp only [hnul, if_true]
        exact ⟨none, s₁, l₁, rfl, rfl, hat, hsame, hlen, fun c hc => by cases hc⟩
      · simp only [hnul, if_false]
        by_cases hcomment : c = '#'
        · obtain ⟨closed, s₂, l₂, hskip, hskip', hat', hsame', hlen'⟩ :=
            skipComment_ends hagree fuel hat.before (show l₁.length < fuel by omega)
          simp only [hcomment, ne_eq, not_true_eq_false, if_false, hskip, hskip']
          cases closed with
          | false =>
            exact ⟨none, s₂, l₂, rfl, rfl, hat', hsame.trans hsame', by omega,
              fun c hc => by cases hc⟩
          | true =>
            obtain ⟨ch, s₃, l₃, hrest, hrest', hat'', hsame'', hlen'', hread'⟩ :=
              ih hat'.countLine.before (show l₂.length + 1 < fuel by omega)
            refine ⟨ch, s₃, l₃, hrest, hrest', hat'',
              hsame.trans (hsame'.trans ((same_countLine s₂).trans hsame'')), by omega,
              fun c hc => ?_⟩
            obtain ⟨hblank', hne, hshort'⟩ := hread' c hc
            exact ⟨hblank', hne, by omega⟩
        · simp only [ne_eq, hcomment, not_false_eq_true, if_true]
          refine ⟨some c, s₁, l₁, rfl, rfl, hat, hsame, hlen, fun x hx => ?_⟩
          cases hx
          exact ⟨hblank, hcomment, hshort⟩

theorem skipIndent_ends (fuel : Nat) : ∀ {s : Input} {l : List Char}, Before src s l →
    l.length < fuel →
    ∃ ch s' l', skipIndent src fuel s = some (ch, s') ∧ skipIndent src' fuel s = some (ch, s')
      ∧ At src s' l' ∧ Same s s' ∧ l'.length ≤ l.length
      ∧ (ch = none → l' = []) ∧ ∀ c, ch = some c → l'.length < l.length := by
  induction fuel with
  | zero => exact fun _ h => absurd h (Nat.not_lt_zero _)
  | succ fuel ih =>
    intro s l h hfuel
    have hsource := h.next_agree hagree
    cases l with
    | nil =>
      obtain ⟨s₁, hnext, hat, hsame⟩ := h.next
      refine ⟨none, s₁, [], ?_, ?_, hat, hsame, Nat.le_refl _, fun _ => rfl, fun c hc => by cases hc⟩
      · simp only [skipIndent, hnext, List.head?_nil]
      · simp only [skipIndent, hsource, hnext, List.head?_nil]
    | cons c r =>
      obtain ⟨s₁, hnext, hat, hsame⟩ := h.next_cons
      rw [List.length_cons] at hfuel ⊢
      simp only [skipIndent, hsource, hnext]
      by_cases hblank : (c = ' ' || charIsTab c) = true
      · obtain ⟨ch, s₂, l', hrun, hrun', hat', hsame', hlen, hnone, hread⟩ := ih hat.before
          (show r.length < fuel by omega)
        rw [if_pos hblank, if_pos hblank]
        refine ⟨ch, s₂, l', hrun, hrun', hat', hsame.trans hsame', by omega, hnone, fun c hc => ?_⟩
        have hshort := hread c hc
        omega
      · rw [if_neg hblank, if_neg hblank]
        exact ⟨some c, s₁, r, rfl, rfl, hat, hsame, by omega, fun hc => (by cases hc),
          fun _ _ => by omega⟩

/-- The loop of a quoted string ends. -/
theorem quotedLoop_ends (fuel : Nat) : ∀ {buf : CStr} {s : Input} {l : List Char}, Before src s l →
    l.length < fuel → buf.length ≤ maxToken →
    ∃ out, quotedLoop src fuel buf s = some out ∧ quotedLoop src' fuel buf s = some out
      ∧ Leaves src s l.length out := by
  induction fuel with
  | zero => exact fun _ h => absurd h (Nat.not_lt_zero _)
  | succ fuel ih =>
    intro buf s l h hfuel hbuf
    have hsource := h.next_agree hagree
    rw [quotedLoop, quotedLoop]
    by_cases hfull : maxToken ≤ buf.length
    · rw [if_pos hfull, if_pos hfull]
      exact ⟨_, rfl, rfl, l, h, Same.refl s, Nat.le_refl _, hbuf⟩
    · rw [if_neg hfull, if_neg hfull]
      have hroom : ∀ c : Char, (buf ++ [c]).length ≤ maxToken := fun c => by
        rw [List.length_append, List.length_singleton]
        omega
      cases l with
      | nil =>
        obtain ⟨s₁, hnext, hat, hsame⟩ := h.next
        rw [hsource, hnext]
        exact ⟨_, rfl, rfl, [], hat.before, hsame, Nat.le_refl _, hbuf⟩
      | cons c r =>
        obtain ⟨s₁, hnext, hat, hsame⟩ := h.next_cons
        rw [List.length_cons] at hfuel ⊢
        simp only [hsource, hnext]
        by_cases hquote : c = '"'
        · simp only [hquote, if_true]
          exact ⟨_, rfl, rfl, r, hat.before, hsame, Nat.le_succ _, hbuf⟩
        · by_cases hescape : c = '\\'
          · have hsource' := hat.before.next_agree hagree
            simp only [hescape, if_true]
            rw [if_neg (by decide), if_neg (by decide)]
            cases r with
            | nil =>
              obtain ⟨s₂, hnext', hat', hsame'⟩ := hat.before.next
              rw [hsource', hnext']
              exact ⟨_, rfl, rfl, [], hat'.before, hsame.trans hsame', Nat.zero_le _, hbuf⟩
            | cons x r =>
              obtain ⟨s₂, hnext', hat', hsame'⟩ := hat.before.next_cons
              rw [List.length_cons] at hfuel ⊢
              simp only [hsource', hnext']
              have hboth := hsame.trans hsame'
              by_cases hplain : (decide (x = '"') || decide (x = '\\')) = true
              · rw [if_pos hplain, if_pos hplain]
                obtain ⟨out, hrun, hrun', hleaves⟩ := ih hat'.before (by omega) (hroom x)
                exact ⟨out, hrun, hrun', hleaves.after hboth (by omega)⟩
              · rw [if_neg hplain, if_neg hplain]
                by_cases hnl : charIsNewline x = true
                · obtain ⟨ch, s₃, l₃, hindent, hindent', hat₃, hsame₃, hlen, hnone, hread⟩ :=
                    skipIndent_ends hagree fuel hat'.before (show r.length < fuel by omega)
                  simp only [hnl, if_true, hindent, hindent']
                  have hall := hboth.trans hsame₃
                  by_cases hnul : ch = some '\x00'
                  · rw [if_pos hnul, if_pos hnul]
                    obtain ⟨out, hrun, hrun', hleaves⟩ := ih hat₃.before (by omega) hbuf
                    exact ⟨out, hrun, hrun', hleaves.after hall (by omega)⟩
                  · obtain ⟨l₄, hback, hlen₄⟩ : ∃ l₄, Before src (again ch s₃) l₄
                        ∧ l₄.length ≤ r.length := by
                      cases ch with
                      | none =>
                        obtain rfl := hnone rfl
                        exact ⟨[], hat₃.keep_eof, Nat.zero_le _⟩
                      | some y => exact ⟨y :: l₃, hat₃.keep fun hy => hnul (by rw [hy]), hread y rfl⟩
                    rw [if_neg hnul, if_neg hnul]
                    obtain ⟨out, hrun, hrun', hleaves⟩ := ih hback (by omega) (hroom ' ')
                    exact ⟨out, hrun, hrun', hleaves.after (hall.trans (same_again ch s₃))
                      (by omega)⟩
                · rw [if_neg hnl, if_neg hnl]
                  by_cases hn : x = 'n'
                  · rw [if_pos hn, if_pos hn]
                    obtain ⟨out, hrun, hrun', hleaves⟩ := ih hat'.before (by omega) (hroom '\n')
                    exact ⟨out, hrun, hrun', hleaves.after hboth (by omega)⟩
                  · rw [if_neg hn, if_neg hn]
                    exact ⟨_, rfl, rfl, r, hat'.before, hboth, by omega, hbuf⟩
          · simp only [hquote, hescape, if_false]
            by_cases hnl : charIsNewline c = true
            · rw [if_pos hnl, if_pos hnl]
              exact ⟨_, rfl, rfl, r, hat.before, hsame, Nat.le_succ _, hbuf⟩
            · rw [if_neg hnl, if_neg hnl]
              obtain ⟨out, hrun, hrun', hleaves⟩ := ih hat.before (show r.length < fuel by omega)
                (hroom c)
              exact ⟨out, hrun, hrun', hleaves.after hsame (Nat.le_succ _)⟩

/-- A character that is escaped or no separator belongs to the token. -/
theorem bareLoop_step {c : Char} {escaped : Bool} (hc : escaped = true ∨ endsToken c = false)
    {buf : CStr} (hroom : ¬ maxToken ≤ buf.length) {s : Input} (h : At src s r) (fuel : Nat) :
    ∃ buf' escaped' s', bareLoop src (fuel + 1) buf escaped (some c) s
        = bareLoop src fuel buf' escaped' r.head? s'
      ∧ bareLoop src' (fuel + 1) buf escaped (some c) s = bareLoop src' fuel buf' escaped' r.head? s'
      ∧ At src s' r.tail ∧ Same s s' ∧ buf'.length ≤ maxToken := by
  have hmore : ∀ x : Char, (buf ++ [x]).length ≤ maxToken := fun x => by
    rw [List.length_append, List.length_singleton]
    omega
  cases escaped with
  | true =>
    obtain ⟨s₁, hs₁, hat₁, hsame₁⟩ : ∃ s₁, s₁ = (if c = '\n' then countLine s else s) ∧ At src s₁ r
        ∧ Same s s₁ := by
      by_cases hnl : c = '\n'
      · exact ⟨countLine s, (if_pos hnl).symm, h.countLine, same_countLine s⟩
      · exact ⟨s, (if_neg hnl).symm, h, Same.refl s⟩
    obtain ⟨s₂, hnext, hat₂, hsame₂⟩ := hat₁.before.next
    have hsource := hat₁.before.next_agree hagree
    refine ⟨if c = '\n' then buf else buf ++ [if charIsTab c then ' ' else c], false, s₂, ?_, ?_,
      hat₂, hsame₁.trans hsame₂, ?_⟩
    · rw [bareLoop, if_neg hroom]
      simp only [← hs₁, hnext, if_true]
    · rw [bareLoop, if_neg hroom]
      simp only [← hs₁, hsource, hnext, if_true]
    · split
      · omega
      · exact hmore _
  | false =>
    have hends : endsToken c = false := by simpa using hc
    obtain ⟨s₁, hnext, hat, hsame⟩ := h.before.next
    have hsource := h.before.next_agree hagree
    by_cases hescape : c = '\\'
    · refine ⟨buf, true, s₁, ?_, ?_, hat, hsame, by omega⟩
      · rw [bareLoop, if_neg hroom]
        simp only [hends, hnext, Bool.false_eq_true, if_false]
        rw [if_pos hescape]
      · rw [bareLoop, if_neg hroom]
        simp only [hends, hsource, hnext, Bool.false_eq_true, if_false]
        rw [if_pos hescape]
    · refine ⟨buf ++ [c], false, s₁, ?_, ?_, hat, hsame, hmore c⟩
      · rw [bareLoop, if_neg hroom]
        simp only [hends, hnext, hescape, Bool.false_eq_true, if_false]
      · rw [bareLoop, if_neg hroom]
        simp only [hends, hsource, hnext, hescape, Bool.false_eq_true, if_false]

/-- The loop of a token without quotes ends. -/
theorem bareLoop_ends (fuel : Nat) : ∀ {buf : CStr} {escaped : Bool} {s : Input} {l : List Char},
    At src s l.tail → l.length < fuel → buf.length ≤ maxToken →
    ∃ out, bareLoop src fuel buf escaped l.head? s = some out
      ∧ bareLoop src' fuel buf escaped l.head? s = some out ∧ Leaves src s l.length out := by
  induction fuel with
  | zero => exact fun _ h => absurd h (Nat.not_lt_zero _)
  | succ fuel ih =>
    intro buf escaped s l h hfuel hbuf
    by_cases hfull : maxToken ≤ buf.length
    · exact ⟨_, if_pos hfull, if_pos hfull, l.tail, h.before, Same.refl s,
        by rw [List.length_tail]; omega, hbuf⟩
    · cases l with
      | nil =>
        cases escaped with
        | true => exact ⟨_, if_neg hfull, if_neg hfull, [], h.before, Same.refl s, Nat.zero_le _, hbuf⟩
        | false =>
          exact ⟨_, if_neg hfull, if_neg hfull, [], h.keep_eof, same_again none s, Nat.zero_le _,
            hbuf⟩
      | cons c r =>
        rw [List.length_cons] at hfuel ⊢
        by_cases hc : escaped = true ∨ endsToken c = false
        · obtain ⟨buf', escaped', s₁, hstep, hstep', hat, hsame, hbuf'⟩ :=
            bareLoop_step hagree hc hfull h fuel
          obtain ⟨out, hrun, hrun', hleaves⟩ := @ih buf' escaped' s₁ r hat (by omega) hbuf'
          rw [List.head?_cons, hstep, hstep']
          exact ⟨out, hrun, hrun', hleaves.after hsame (Nat.le_succ _)⟩
        · rw [not_or, Bool.not_eq_true, Bool.not_eq_false] at hc
          obtain ⟨rfl, hends⟩ := hc
          have hnul : c ≠ '\x00' := by
            rintro rfl
            cases hends
          refine ⟨(.got (), buf, again (some c) s), ?_, ?_, c :: r, h.keep hnul, same_again _ s,
            Nat.le_refl _, hbuf⟩
          · rw [List.head?_cons, bareLoop, if_neg hfull]
            simp only [hends, Bool.false_eq_true, if_false, if_true]
          · rw [List.head?_cons, bareLoop, if_neg hfull]
            simp only [hends, Bool.false_eq_true, if_false, if_true]

theorem finishToken_agree (out : Read Unit × CStr × Input) :
    finishToken src' out = finishToken src out := by
  obtain ⟨res, buf, s⟩ := out
  cases res with
  | null => rfl
  | error msg => rfl
  | got _ => simp only [finishToken, strdup, hagree.malloc]

omit hagree in
/-- The copy of a token leaves the text alone. -/
theorem Leaves.finish {s : Input} {n : Nat} {out : Read Unit × CStr × Input} (h : Leaves src s n out)
    (hlast : s.lastToken = none) (hwritten : s.written ≤ maxToken + 1) :
    ∃ l, Before src (finishToken src out).2 l ∧ (finishToken src out).2.lastToken = none
      ∧ (finishToken src out).2.written ≤ maxToken + 1 ∧ l.length ≤ n := by
  obtain ⟨l, hbefore, hsame, hlen, hbuf⟩ := h
  obtain ⟨res, buf, s'⟩ := out
  have hlast' : s'.lastToken = none := hsame.lastToken.trans hlast
  have hwritten' : s'.written ≤ maxToken + 1 := by
    rw [show s'.written = s.written from hsame.written]
    exact hwritten
  have hbuf : buf.length ≤ maxToken := hbuf
  cases res with
  | null => exact ⟨l, hbefore.write _, hlast', Nat.max_le.mpr ⟨hwritten', by omega⟩, hlen⟩
  | error msg => exact ⟨l, hbefore.write _, hlast', Nat.max_le.mpr ⟨hwritten', by omega⟩, hlen⟩
  | got _ =>
    exact ⟨l, ⟨hbefore.inside, hbefore.back⟩, hlast', Nat.max_le.mpr ⟨hwritten', by omega⟩, hlen⟩

/-- **A token**: `cfg_get_token` ends, has read something unless it returns NULL, and has written at
most 513 bytes. -/
theorem cfgGetToken_ends {fuel : Nat} {s : Input} {l : List Char} (h : Before src s l)
    (hfuel : l.length + 1 < fuel) (hlast : s.lastToken = none) (hwritten : s.written ≤ maxToken + 1) :
    ∃ res s' l', cfgGetToken src fuel s = some (res, s') ∧ cfgGetToken src' fuel s = some (res, s')
      ∧ Before src s' l' ∧ s'.lastToken = none ∧ s'.written ≤ maxToken + 1 ∧ l'.length ≤ l.length
      ∧ ∀ token, res = .got token → l'.length < l.length := by
  obtain ⟨ch, s₁, l₁, hskip, hskip', hat, hsame, hlen, hread⟩ := skipSpace_ends hagree fuel h hfuel
  have hlast₁ : s₁.lastToken = none := hsame.lastToken.trans hlast
  have hwritten₁ : s₁.written ≤ maxToken + 1 := by
    rw [hsame.written]
    exact hwritten
  simp only [cfgGetToken, hlast, hskip, hskip']
  cases ch with
  | none =>
    exact ⟨.null, s₁, l₁, rfl, rfl, hat.before, hlast₁, hwritten₁, hlen, fun t ht => by cases ht⟩
  | some c =>
    obtain ⟨hblank, hcomment, hshort⟩ := hread c rfl
    -- a token that leaves at most what is behind its first character
    have hleaves : ∀ out, Leaves src s₁ l₁.length out → ∃ res s' l',
        some (finishToken src out) = some (res, s') ∧ some (finishToken src' out) = some (res, s')
        ∧ Before src s' l' ∧ s'.lastToken = none ∧ s'.written ≤ maxToken + 1
        ∧ l'.length ≤ l.length ∧ ∀ token, res = .got token → l'.length < l.length := by
      intro out hout
      obtain ⟨l', hbefore, hlast', hwritten', hlen'⟩ := hout.finish hlast₁ hwritten₁
      exact ⟨_, _, l', rfl, congrArg some (finishToken_agree hagree out), hbefore, hlast', hwritten',
        by omega, fun _ _ => by omega⟩
    by_cases heq : c = '='
    · simp only [heq, if_true]
      have hcopied : Before src { s₁ with mallocs := s₁.mallocs + 1 } l₁ :=
        ⟨hat.before.inside, hat.before.back⟩
      refine ⟨_, _, l₁, rfl, ?_, hcopied, hlast₁, hwritten₁, hlen, fun _ _ => hshort⟩
      simp only [strdup, hagree.malloc]
    · by_cases hquote : c = '"'
      · obtain ⟨out, hrun, hrun', hout⟩ := @quotedLoop_ends src src' hagree fuel [] s₁ l₁ hat.before
          (by omega) (Nat.zero_le _)
        simp only [hquote, if_true, hrun, hrun', Option.map_some]
        rw [if_neg (by decide), if_neg (by decide)]
        exact hleaves out hout
      · have hends : endsToken c = false := by
          simp [endsToken, hblank, hcomment, heq]
        obtain ⟨fuel, rfl⟩ : ∃ k, fuel = k + 1 := ⟨fuel - 1, by omega⟩
        obtain ⟨buf, escaped, s₂, hstep, hstep', hat₂, hsame₂, hbuf⟩ := @bareLoop_step src l₁ src'
          hagree c false (.inr hends) [] (by decide) s₁ hat fuel
        obtain ⟨out, hrun, hrun', hout⟩ := @bareLoop_ends src src' hagree fuel buf escaped s₂ l₁ hat₂
          (by omega) hbuf
        simp only [heq, hquote, if_false, hstep, hstep', hrun, hrun', Option.map_some]
        exact hleaves out (hout.after hsame₂ (Nat.le_refl _))

/-- What is left to be parsed: a token that is given back counts less than a character. -/
def Input.left (s : Input) (l : List Char) : Nat := 2 * l.length + if s.lastToken.isSome then 1 else 0

/-- A token, also one that was given back. -/
theorem anyToken_ends {fuel : Nat} {s : Input} {l : List Char} (h : Before src s l)
    (hfuel : l.length + 1 < fuel) (hwritten : s.written ≤ maxToken + 1) :
    ∃ res s' l', cfgGetToken src fuel s = some (res, s') ∧ cfgGetToken src' fuel s = some (res, s')
      ∧ Before src s' l' ∧ s'.lastToken = none ∧ s'.written ≤ maxToken + 1 ∧ l'.length ≤ l.length
      ∧ ∀ token, res = .got token → 2 * l'.length < s.left l := by
  cases hlast : s.lastToken with
  | none =>
    obtain ⟨res, s', l', hrun, hrun', hbefore, hlast', hwritten', hlen, hgot⟩ :=
      cfgGetToken_ends hagree h hfuel hlast hwritten
    refine ⟨res, s', l', hrun, hrun', hbefore, hlast', hwritten', hlen, fun token htoken => ?_⟩
    have hshort := hgot token htoken
    rw [Input.left]
    omega
  | some here =>
    have hgiven : Before src { s with lastToken := none } l := ⟨h.inside, h.back⟩
    refine ⟨.got here, { s with lastToken := none }, l, ?_, ?_, hgiven, rfl, hwritten,
      Nat.le_refl _, fun _ _ => ?_⟩
    · simp only [cfgGetToken, hlast]
    · simp only [cfgGetToken, hlast]
    · rw [Input.left, hlast]
      exact Nat.lt_succ_self _

theorem cfgNext_ends {fuel : Nat} {s : Input} {l : List Char} (h : Before src s l)
    (hfuel : l.length + 1 < fuel) (hwritten : s.written ≤ maxToken + 1) :
    ∃ res s' l', cfgNext src fuel s = some (res, s') ∧ cfgNext src' fuel s = some (res, s')
      ∧ Before src s' l' ∧ s'.written ≤ maxToken + 1 ∧ l'.length ≤ l.length
      ∧ ∀ item, res = .got item → s'.left l' < s.left l := by
  obtain ⟨res₁, s₁, l₁, hrun₁, hrun₁', hbefore₁, hlast₁, hwritten₁, hlen₁, hgot₁⟩ :=
    anyToken_ends hagree h hfuel hwritten
  simp only [cfgNext, hrun₁, hrun₁']
  cases res₁ with
  | null => exact ⟨_, s₁, l₁, rfl, rfl, hbefore₁, hwritten₁, hlen₁, fun _ hx => by cases hx⟩
  | error msg => exact ⟨_, s₁, l₁, rfl, rfl, hbefore₁, hwritten₁, hlen₁, fun _ hx => by cases hx⟩
  | got item =>
    have hleft₁ := hgot₁ item rfl
    by_cases heq : item = ['=']
    · simp only [heq, if_true]
      exact ⟨_, s₁, l₁, rfl, rfl, hbefore₁, hwritten₁, hlen₁, fun _ hx => by cases hx⟩
    · obtain ⟨res₂, s₂, l₂, hrun₂, hrun₂', hbefore₂, hlast₂, hwritten₂, hlen₂, hgot₂⟩ :=
        cfgGetToken_ends hagree hbefore₁ (show l₁.length + 1 < fuel by omega) hlast₁ hwritten₁
      have hleft₂ : s₂.left l₂ = 2 * l₂.length := by
        rw [Input.left, hlast₂]
        rfl
      simp only [heq, if_false, hrun₂, hrun₂']
      cases res₂ with
      | null =>
        refine ⟨_, s₂, l₂, rfl, rfl, hbefore₂, hwritten₂, by omega, fun _ _ => ?_⟩
        rw [hleft₂]
        omega
      | error msg =>
        exact ⟨_, s₂, l₂, rfl, rfl, hbefore₂, hwritten₂, by omega, fun _ hx => by cases hx⟩
      | got this =>
        have hshort := hgot₂ this rfl
        by_cases hthis : this = ['=']
        · obtain ⟨res₃, s₃, l₃, hrun₃, hrun₃', hbefore₃, hlast₃, hwritten₃, hlen₃, -⟩ :=
            cfgGetToken_ends hagree hbefore₂ (show l₂.length + 1 < fuel by omega) hlast₂ hwritten₂
          have hleft₃ : s₃.left l₃ = 2 * l₃.length := by
            rw [Input.left, hlast₃]
            rfl
          simp only [hthis, ne_eq, not_true_eq_false, if_false, hrun₃, hrun₃']
          cases res₃ with
          | null => exact ⟨_, s₃, l₃, rfl, rfl, hbefore₃, hwritten₃, by omega, fun _ hx => by cases hx⟩
          | error msg =>
            exact ⟨_, s₃, l₃, rfl, rfl, hbefore₃, hwritten₃, by omega, fun _ hx => by cases hx⟩
          | got value =>
            by_cases hvalue : value = ['=']
            · simp only [hvalue, if_true]
              exact ⟨_, s₃, l₃, rfl, rfl, hbefore₃, hwritten₃, by omega, fun _ hx => by cases hx⟩
            · simp only [hvalue, if_false]
              refine ⟨_, s₃, l₃, rfl, rfl, hbefore₃, hwritten₃, by omega, fun _ _ => ?_⟩
              rw [hleft₃]
              omega
        · simp only [ne_eq, hthis, not_false_eq_true, if_true]
          have hreturned : Before src (cfgReturnToken this s₂) l₂ := ⟨hbefore₂.inside, hbefore₂.back⟩
          have hleft : (cfgReturnToken this s₂).left l₂ = 2 * l₂.length + 1 := rfl
          refine ⟨_, _, l₂, rfl, rfl, hreturned, hwritten₂, by omega, fun _ _ => ?_⟩
          rw [hleft]
          omega

theorem parseLoop_ends (malloc : Nat → Bool) (fuel : Nat) : ∀ {st : CfgState} {s : Input}
    {l : List Char}, Before src s l → s.left l + l.length + 2 < fuel → s.written ≤ maxToken + 1 →
    ∃ out, parseLoop src malloc fuel st s = some out ∧ parseLoop src' malloc fuel st s = some out
      ∧ out.2.1.written ≤ maxToken + 1 ∧ out.2.1.currp ≤ src.endp := by
  induction fuel with
  | zero => exact fun _ h => absurd h (Nat.not_lt_zero _)
  | succ fuel ih =>
    intro st s l h hfuel hwritten
    obtain ⟨res, s', l', hrun, hrun', hbefore, hwritten', hlen, hgot⟩ :=
      cfgNext_ends hagree h (show l.length + 1 < fuel by omega) hwritten
    simp only [parseLoop, hrun, hrun']
    cases res with
    | null => exact ⟨_, rfl, rfl, hwritten', hbefore.inside⟩
    | error msg => exact ⟨_, rfl, rfl, hwritten', hbefore.inside⟩
    | got item =>
      have hleft := hgot item rfl
      by_cases hfail : (cfgSet (malloc st.images.length) st item.1 item.2).2 < 0
      · simp only [hfail, if_true]
        exact ⟨_, rfl, rfl, hwritten', hbefore.inside⟩
      · simp only [hfail, if_false]
        exact ih hbefore (by omega) hwritten'

end Ends

/-- **Parsing ends for every text**: with more fuel than three times its length `cfg_parse` returns;
it has written at most 513 bytes of a token, and what stands outside the text does not matter. -/
theorem cfgParse_ends (src : Source) (cpu : Nat) (malloc : Nat → Bool) (tabMalloc : Bool)
    (fuel : Nat) (hfuel : 3 * src.endp + 2 < fuel) :
    ∃ st s result, cfgParse src cpu malloc tabMalloc fuel = some (st, s, result)
      ∧ s.written ≤ 513 ∧ s.currp ≤ src.endp
      ∧ ∀ buff, (∀ i < src.endp, buff i = src.buff i) →
        cfgParse { src with buff := buff } cpu malloc tabMalloc fuel = some (st, s, result) := by
  have hstart : Before src inputStart (src.unread inputStart) :=
    ⟨Nat.zero_le _, .inl ⟨rfl, rfl⟩⟩
  have hlength : (src.unread inputStart).length = src.endp := by
    rw [Source.unread, List.length_map, List.length_range']
    rfl
  have hleft : inputStart.left (src.unread inputStart) = 2 * src.endp := by
    rw [Input.left, hlength]
    rfl
  have hsame : ∀ buff, (∀ i < src.endp, buff i = src.buff i) →
      ∃ out, parseLoop src malloc fuel (cfgStart cpu) inputStart = some out
        ∧ parseLoop { src with buff := buff } malloc fuel (cfgStart cpu) inputStart = some out
        ∧ out.2.1.written ≤ maxToken + 1 ∧ out.2.1.currp ≤ src.endp := fun buff hbuff =>
    @parseLoop_ends src { src with buff := buff } ⟨rfl, rfl, hbuff⟩ malloc fuel (cfgStart cpu) _ _
      hstart (by omega) (Nat.zero_le _)
  obtain ⟨out, hrun, -, hwritten, hinside⟩ := hsame src.buff fun _ _ => rfl
  refine ⟨out.1, out.2.1, !out.2.2 && (decide (0 < out.1.tabCompletionLen) && tabMalloc), ?_,
    hwritten, hinside, fun buff hbuff => ?_⟩
  · rw [cfgParse, hrun]
    rfl
  · obtain ⟨out', hrun', hrun'', -⟩ := hsame buff hbuff
    obtain rfl := Option.some.inj (hrun.symm.trans hrun')
    rw [cfgParse, hrun'']
    rfl

/-- A string that is not closed, behind a backslash at the end of a line. -/
def openText : CStr := "label=\"a\\\n".toList

theorem openText_ends :
    ∃ st s result, cfgParse (textSource openText) 64 (fun _ => true) true 40 = some (st, s, result)
      ∧ s.written ≤ 513 ∧ s.currp ≤ (textSource openText).endp
      ∧ ∀ buff, (∀ i < (textSource openText).endp, buff i = (textSource openText).buff i) →
        cfgParse { textSource openText with buff := buff } 64 (fun _ => true) true 40
          = some (st, s, result) :=
  cfgParse_ends (textSource openText) 64 (fun _ => true) true 40 (by decide)

end LiloBoot.Cfg
