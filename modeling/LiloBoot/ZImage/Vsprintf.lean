/-
LiloBoot.ZImage.Vsprintf — `vsprintf` of `common/stdio.c`.

The stores through `str` go to one place after the other, so what the function
stores is the list of the characters, with the NUL behind them left out. The
arguments are a list; where the format asks for one that is not there, or of another
type, the result is undefined (`none`). An `int` on the way is unbounded, as in
`zNumber`.
-/
import LiloBoot.Lib.Number

namespace LiloBoot.ZImage

/-! ## §1 The directive -/

/-- An argument behind the format: an `int`, `long` or `size_t`, a `long long`, a string or NULL,
an address. -/
inductive VaArg where
  | word (v : BitVec 32)
  | longLong (v : BitVec 64)
  | str (s : Option CStr)
  | pointer (p : BitVec 32)
  deriving DecidableEq, Repr

def isdigit (c : Char) : Bool := '0' ≤ c ∧ c ≤ '9'

/-- `skip_atoi`: the number, and the format behind its digits. -/
def skipAtoi (i : Nat) : CStr → Nat × CStr
  | [] => (i, [])
  | c :: fmt => if isdigit c then skipAtoi (i * 10 + (c.toNat - '0'.toNat)) fmt else (i, c :: fmt)

/-- The flag of a character at `repeat:`. -/
def flagOf (c : Char) : Nat :=
  if c = '-' then LEFT
  else if c = '+' then PLUS
  else if c = ' ' then SPACE
  else if c = '#' then SPECIAL
  else if c = '0' then ZEROPAD
  else 0

/-- The flags, and the format behind them. -/
def getFlags (flags : Nat) : CStr → Nat × CStr
  | [] => (flags, [])
  | c :: fmt => if flagOf c ≠ 0 then getFlags (flags ||| flagOf c) fmt else (flags, c :: fmt)

/-- A field of a directive: its value, and what is behind it. -/
structure Field (α : Type) where
  value : α
  fmt : CStr
  args : List VaArg

/-- A number in the format or, at `*`, the next argument; `otherwise` where there is neither. -/
def getInt (otherwise : Int) (args : List VaArg) : CStr → Option (Field Int)
  | [] => some ⟨otherwise, [], args⟩
  | c :: fmt =>
    if isdigit c then some ⟨(skipAtoi 0 (c :: fmt)).1, (skipAtoi 0 (c :: fmt)).2, args⟩
    else if c = '*' then
      match args with
      | .word v :: args => some ⟨v.toInt, fmt, args⟩
      | _ => none
    else some ⟨otherwise, c :: fmt, args⟩

/-- `field_width` and `flags`: a width that is negative is one with `-`. Digits never give one. -/
def getWidth (flags : Nat) (fmt : CStr) (args : List VaArg) : Option (Field (Nat × Int)) :=
  (getInt (-1) args fmt).map fun f =>
    if fmt.head? = some '*' ∧ f.value < 0 then ⟨(flags ||| LEFT, -f.value), f.fmt, f.args⟩
    else ⟨(flags, f.value), f.fmt, f.args⟩

def getPrecision (args : List VaArg) : CStr → Option (Field Int)
  | '.' :: fmt => (getInt (-1) args fmt).map fun f => ⟨max f.value 0, f.fmt, f.args⟩
  | fmt => some ⟨-1, fmt, args⟩

/-- `qualifier`, `none` for -1, and the format behind it. -/
def getQualifier : CStr → Option Char × CStr
  | 'l' :: 'l' :: fmt => (some 'L', fmt)
  | c :: fmt => if c = 'h' ∨ c = 'l' ∨ c = 'L' ∨ c = 'Z' then (some c, fmt) else (none, c :: fmt)
  | [] => (none, [])

/-- `num`, from the next argument. -/
def getNum (qualifier : Option Char) (signed : Bool) : List VaArg → Option (BitVec 64)
  | .longLong v :: _ => if qualifier = some 'L' then some v else none
  | .word v :: _ =>
    if qualifier = some 'L' then none
    else if qualifier = some 'Z' then some (v.setWidth 64)
    else if qualifier = some 'h' then
      some (if signed then (v.setWidth 16).signExtend 64 else (v.setWidth 16).setWidth 64)
    else some (if signed then v.signExtend 64 else v.setWidth 64)
  | _ => none

/-- What a directive stores through `str`, the count that `%n` stores elsewhere, and what is left of
the format and of the arguments. -/
structure Converted where
  str : CStr
  counts : List (BitVec 32 × Nat)
  fmt : CStr
  args : List VaArg

variable (around : Int → Char)

/-- A call of `number` for the next argument. -/
def convertNumber (num : BitVec 64) (base width precision : Int) (flags : Nat) (fmt : CStr)
    (args : List VaArg) : Option Converted :=
  match zNumber around num base width precision flags with
  | .written w => some ⟨w.str, [], fmt, args⟩
  | _ => none

/-- The `break` of the number formats, and what is behind the `switch`. -/
def convertInt (qualifier : Option Char) (base width precision : Int) (flags : Nat) (fmt : CStr)
    (args : List VaArg) : Option Converted :=
  (getNum qualifier (has flags SIGN) args).bind fun num =>
    convertNumber around num base width precision flags fmt args.tail

/-- `case 'p'`. -/
def convertPointer (width precision : Int) (flags : Nat) (fmt : CStr) :
    List VaArg → Option Converted
  | .pointer p :: args =>
    if width = -1 then
      convertNumber around (p.setWidth 64) 16 8 precision (flags ||| ZEROPAD) fmt args
    else convertNumber around (p.setWidth 64) 16 width precision flags fmt args
  | _ => none

/-- `case 'n'`; `pos` is `str - buf`. -/
def convertCount (pos : Nat) (fmt : CStr) : List VaArg → Option Converted
  | .pointer p :: args => some ⟨[], [(p, pos)], fmt, args⟩
  | _ => none

/-- `case 'c'`. -/
def convertChar (flags : Nat) (width : Int) (fmt : CStr) : List VaArg → Option Converted
  | .word v :: args =>
    let pad := List.replicate (width - 1).toNat ' '
    let c := Char.ofNat (v.toNat % 256)
    some ⟨if has flags LEFT then c :: pad else pad ++ [c], [], fmt, args⟩
  | _ => none

/-- `case 's'`. -/
def convertStr (flags : Nat) (width precision : Int) (fmt : CStr) : List VaArg → Option Converted
  | .str s :: args =>
    let s := s.getD "<NULL>".toList
    let s := if precision < 0 then s else s.take precision.toNat
    let pad := List.replicate (width - s.length).toNat ' '
    some ⟨if has flags LEFT then s ++ pad else pad ++ s, [], fmt, args⟩
  | _ => none

/-- `switch (*fmt)`. -/
def convert (flags : Nat) (width precision : Int) (qualifier : Option Char) (pos : Nat)
    (args : List VaArg) : CStr → Option Converted
  | [] => some ⟨['%'], [], [], args⟩
  | c :: fmt =>
    if c = 'c' then convertChar flags width fmt args
    else if c = 's' then convertStr flags width precision fmt args
    else if c = 'p' then convertPointer around width precision flags fmt args
    else if c = 'n' then convertCount pos fmt args
    else if c = '%' then some ⟨['%'], [], fmt, args⟩
    else if c = 'o' then convertInt around qualifier 8 width precision flags fmt args
    else if c = 'X' then convertInt around qualifier 16 width precision (flags ||| LARGE) fmt args
    else if c = 'x' then convertInt around qualifier 16 width precision flags fmt args
    else if c = 'd' ∨ c = 'i' then
      convertInt around qualifier 10 width precision (flags ||| SIGN) fmt args
    else if c = 'u' then convertInt around qualifier 10 width precision flags fmt args
    else some ⟨['%', c], [], fmt, args⟩

/-- What stands behind a `%`. -/
def directive (pos : Nat) (fmt : CStr) (args : List VaArg) : Option Converted :=
  let (flags, fmt) := getFlags 0 fmt
  (getWidth flags fmt args).bind fun w =>
    (getPrecision w.args w.fmt).bind fun p =>
      convert around w.value.1 w.value.2 p.value (getQualifier p.fmt).1 pos p.args
        (getQualifier p.fmt).2

/-! ## §2 A directive does not lengthen the format -/

theorem skipAtoi_length_le (fmt : CStr) : ∀ i, (skipAtoi i fmt).2.length ≤ fmt.length := by
  induction fmt with
  | nil => exact fun _ => Nat.le_refl _
  | cons c fmt ih =>
    intro i
    rw [skipAtoi]
    split
    · exact (ih _).trans (Nat.le_succ _)
    · exact Nat.le_refl _

theorem getFlags_length_le (fmt : CStr) : ∀ flags, (getFlags flags fmt).2.length ≤ fmt.length := by
  induction fmt with
  | nil => exact fun _ => Nat.le_refl _
  | cons c fmt ih =>
    intro flags
    rw [getFlags]
    split
    · exact (ih _).trans (Nat.le_succ _)
    · exact Nat.le_refl _

theorem getInt_length_le {otherwise : Int} {args : List VaArg} {fmt : CStr} {f : Field Int}
    (h : getInt otherwise args fmt = some f) : f.fmt.length ≤ fmt.length := by
  unfold getInt at h
  split at h
  · cases h
    exact Nat.le_refl _
  · split at h
    · cases h
      exact skipAtoi_length_le _ _
    · split at h
      · split at h
        · cases h
          exact Nat.le_succ _
        · cases h
      · cases h
        exact Nat.le_refl _

theorem getWidth_length_le {flags : Nat} {fmt : CStr} {args : List VaArg} {f : Field (Nat × Int)}
    (h : getWidth flags fmt args = some f) : f.fmt.length ≤ fmt.length := by
  obtain ⟨g, hg, hf⟩ := Option.map_eq_some_iff.mp h
  have hfmt : f.fmt = g.fmt := by
    rw [← hf]
    split <;> rfl
  rw [hfmt]
  exact getInt_length_le hg

theorem getPrecision_length_le {args : List VaArg} {fmt : CStr} {f : Field Int}
    (h : getPrecision args fmt = some f) : f.fmt.length ≤ fmt.length := by
  unfold getPrecision at h
  split at h
  · obtain ⟨g, hg, hf⟩ := Option.map_eq_some_iff.mp h
    rw [← hf]
    exact (getInt_length_le hg).trans (Nat.le_succ _)
  · cases h
    exact Nat.le_refl _

theorem getQualifier_length_le (fmt : CStr) : (getQualifier fmt).2.length ≤ fmt.length := by
  unfold getQualifier
  split
  · simp only [List.length_cons]
    omega
  · split
    · exact Nat.le_succ _
    · exact Nat.le_refl _
  · exact Nat.le_refl _

variable {num : BitVec 64} {base width precision : Int} {flags pos : Nat} {qualifier : Option Char}
  {fmt : CStr} {args : List VaArg} {d : Converted}

theorem convertNumber_fmt
    (h : convertNumber around num base width precision flags fmt args = some d) : d.fmt = fmt := by
  unfold convertNumber at h
  split at h
  · cases h
    rfl
  · cases h

theorem convertInt_fmt
    (h : convertInt around qualifier base width precision flags fmt args = some d) :
    d.fmt = fmt := by
  obtain ⟨num, _, hnum⟩ := Option.bind_eq_some_iff.mp h
  exact convertNumber_fmt around hnum

theorem convertPointer_fmt (h : convertPointer around width precision flags fmt args = some d) :
    d.fmt = fmt := by
  unfold convertPointer at h
  split at h
  · split at h
    · exact convertNumber_fmt around h
    · exact convertNumber_fmt around h
  · cases h

theorem convertCount_fmt (h : convertCount pos fmt args = some d) : d.fmt = fmt := by
  unfold convertCount at h
  split at h
  · cases h
    rfl
  · cases h

theorem convertChar_fmt (h : convertChar flags width fmt args = some d) : d.fmt = fmt := by
  unfold convertChar at h
  split at h
  · cases h
    rfl
  · cases h

theorem convertStr_fmt (h : convertStr flags width precision fmt args = some d) :
    d.fmt = fmt := by
  unfold convertStr at h
  split at h
  · cases h
    rfl
  · cases h

/-- The `switch` takes one character, if there is one. -/
theorem convert_fmt {c : Char}
    (h : convert around flags width precision qualifier pos args (c :: fmt) = some d) :
    d.fmt = fmt := by
  rw [convert] at h
  split at h
  · exact convertChar_fmt h
  split at h
  · exact convertStr_fmt h
  split at h
  · exact convertPointer_fmt around h
  split at h
  · exact convertCount_fmt h
  split at h
  · cases h
    rfl
  split at h
  · exact convertInt_fmt around h
  split at h
  · exact convertInt_fmt around h
  split at h
  · exact convertInt_fmt around h
  split at h
  · exact convertInt_fmt around h
  split at h
  · exact convertInt_fmt around h
  · cases h
    rfl

theorem convert_length_le
    (h : convert around flags width precision qualifier pos args fmt = some d) :
    d.fmt.length ≤ fmt.length := by
  cases fmt with
  | nil =>
    cases h
    exact Nat.le_refl _
  | cons c fmt =>
    rw [convert_fmt around h]
    exact Nat.le_succ _

theorem directive_length_le
    (h : directive around pos fmt args = some d) : d.fmt.length ≤ fmt.length := by
  obtain ⟨w, hw, h⟩ := Option.bind_eq_some_iff.mp h
  obtain ⟨p, hp, h⟩ := Option.bind_eq_some_iff.mp h
  calc d.fmt.length ≤ (getQualifier p.fmt).2.length := convert_length_le around h
    _ ≤ p.fmt.length := getQualifier_length_le _
    _ ≤ w.fmt.length := getPrecision_length_le hp
    _ ≤ (getFlags 0 fmt).2.length := getWidth_length_le hw
    _ ≤ fmt.length := getFlags_length_le _ _

/-! ## §3 `vsprintf` -/

/-- What `vsprintf` stores in `buf`, without the NUL, and the counts that `%n` stores. -/
structure Formatted where
  str : CStr
  counts : List (BitVec 32 × Nat)
  deriving DecidableEq, Repr

/-- The loop over the format, with what was stored before. -/
def vsprintfLoop (f : Formatted) (fmt : CStr) (args : List VaArg) : Option Formatted :=
  match fmt with
  | [] => some f
  | c :: fmt =>
    if c ≠ '%' then vsprintfLoop ⟨f.str ++ [c], f.counts⟩ fmt args
    else
      match _h : directive around f.str.length fmt args with
      | some d => vsprintfLoop ⟨f.str ++ d.str, f.counts ++ d.counts⟩ d.fmt d.args
      | none => none
termination_by fmt.length
decreasing_by
  · exact Nat.lt_succ_self _
  · exact Nat.lt_succ_of_le (directive_length_le around _h)

/-- `vsprintf(buf, fmt, args)`; its result is the length of `str`. -/
def vsprintf (fmt : CStr) (args : List VaArg) : Option Formatted :=
  vsprintfLoop around ⟨[], []⟩ fmt args

/-- A format without a `%` is the message. -/
theorem vsprintf_plain {fmt : CStr} (h : '%' ∉ fmt) (args : List VaArg) :
    vsprintf around fmt args = some ⟨fmt, []⟩ := by
  have hloop : ∀ (fmt : CStr) (f : Formatted), '%' ∉ fmt →
      vsprintfLoop around f fmt args = some ⟨f.str ++ fmt, f.counts⟩ := by
    intro fmt
    induction fmt with
    | nil =>
      intro f _
      rw [vsprintfLoop, List.append_nil]
    | cons c fmt ih =>
      intro f hf
      rw [List.mem_cons, not_or] at hf
      rw [vsprintfLoop, if_pos (Ne.symm hf.1), ih _ hf.2, List.append_assoc, List.singleton_append]
  exact hloop fmt ⟨[], []⟩ h

end LiloBoot.ZImage
