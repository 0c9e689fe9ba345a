/-
LiloBoot.ZImage.Printf — `printf` of `common/stdio.c`.

The message is formatted into `sprint_buf` and then each newline pushes what stands
behind it one place up, to make room for a carriage return. The length of the
message is what `vsprintf` returned, but the loop stops at the first NUL. Only the
index of the loop is tested against the size of the buffer; what `memmove` is given
is not (`printf_right_iff`).
-/
import LiloBoot.ZImage.Vsprintf

namespace LiloBoot.ZImage

/-! ## §1 `printf` -/

/-- `sizeof(sprint_buf)`. -/
def sprintBufSize : Nat := 1024

/-- `memmove(&buf[dst], &buf[src], n)`; `none` outside of the buffer. -/
def memmove (buf : CStr) (dst src n : Nat) : Option CStr :=
  if dst + n ≤ buf.length ∧ src + n ≤ buf.length then
    some (buf.take dst ++ (buf.drop src).take n ++ buf.drop (dst + n))
  else none

/-- `buf[i] = c`; `none` outside of the buffer. -/
def poke (buf : CStr) (i : Nat) (c : Char) : Option CStr :=
  if i < buf.length then some (buf.set i c) else none

/-- The loop over `sprint_buf`, and what it leaves there and in `n`. -/
def returnLoop (buf : CStr) (n i : Nat) : Option (CStr × Nat) :=
  match buf[i]? with
  | none => none
  | some c =>
    if c = '\x00' then some (buf, n)
    else if i < sprintBufSize then
      if '\n' = c then
        -- `n - i + 1`, where `i` is at most `n`
        (memmove buf (i + 1) i (n + 1 - i)).bind fun buf =>
          (poke buf (i + 1) '\r').bind fun buf => returnLoop buf (n + 1) (i + 2)
      else returnLoop buf n (i + 1)
    else some (buf, n)
termination_by sprintBufSize - i

/-- What a call hands to `write`, and what it returns and leaves in `sprint_buf` and behind `%n`. -/
structure Printed where
  written : CStr
  ret : Nat
  buf : CStr
  counts : List (BitVec 32 × Nat)

/-- `printf(fmt, …)`, where `buf` is what `sprint_buf` held before; `none` where it leaves the buffer
or the arguments do not fit the format. -/
def printf (around : Int → Char) (buf fmt : CStr) (args : List VaArg) : Option Printed :=
  (vsprintf around fmt args).bind fun f =>
    let n := f.str.length
    if n < buf.length then
      (returnLoop (f.str ++ '\x00' :: buf.drop (n + 1)) n 0).bind fun (buf, n) =>
        if n ≤ buf.length then some ⟨buf.take n, n, buf, f.counts⟩ else none
    else none

/-! ## §2 What it is for -/

/-- The message with each newline followed by a carriage return. -/
def withReturns (message : CStr) : CStr :=
  message.flatMap fun c => if c = '\n' then ['\n', '\r'] else [c]

theorem withReturns_cons (c : Char) (message : CStr) :
    withReturns (c :: message)
      = (if c = '\n' then ['\n', '\r'] else [c]) ++ withReturns message := rfl

theorem withReturns_length (message : CStr) :
    (withReturns message).length = message.length + message.count '\n' := by
  induction message with
  | nil => rfl
  | cons c message ih =>
    rw [withReturns_cons, List.length_append, ih, List.length_cons]
    by_cases hc : c = '\n'
    · rw [if_pos hc, hc, List.count_cons_self, List.length_cons, List.length_singleton]
      omega
    · rw [if_neg hc, List.count_cons_of_ne hc, List.length_singleton]
      omega

/-- A call whose message has fewer than 1024 characters. -/
structure PrintfCall where
  around : Int → Char
  buf : CStr
  size : buf.length = sprintBufSize
  fmt : CStr
  args : List VaArg
  message : Formatted
  formats : vsprintf around fmt args = some message
  short : message.str.length < 1024

/-- There is room for the carriage returns, and no newline is behind a NUL. -/
def PrintfCall.Fits (c : PrintfCall) : Prop :=
  c.message.str.length + c.message.str.count '\n' < 1024 ∧
    '\n' ∉ c.message.str.dropWhile (· ≠ '\x00')

/-- The call stays in the buffer and writes the message with each newline followed by a carriage
return. -/
def PrintfCall.Right (c : PrintfCall) : Prop :=
  ∃ p, printf c.around c.buf c.fmt c.args = some p ∧ p.written = withReturns c.message.str

/-! ## §3 The loop -/

/-- **A pass at a newline** pushes what is behind it up by one and puts a carriage return in
between. -/
theorem push_newline {out rest tail : CStr} {t : Char} :
    ((memmove (out ++ '\n' :: rest ++ t :: tail) (out.length + 1) out.length (rest.length + 1)).bind
      fun buf => poke buf (out.length + 1) '\r') = some (out ++ '\n' :: '\r' :: rest ++ tail) := by
  have hfits : out.length + 1 + (rest.length + 1) ≤ (out ++ '\n' :: rest ++ t :: tail).length ∧
      out.length + (rest.length + 1) ≤ (out ++ '\n' :: rest ++ t :: tail).length := by
    simp only [List.length_append, List.length_cons]
    omega
  have htake : (out ++ '\n' :: rest ++ t :: tail).take (out.length + 1) = out ++ ['\n'] := by
    rw [List.append_assoc, List.take_length_add_append]
    rfl
  have hmoved : ((out ++ '\n' :: rest ++ t :: tail).drop out.length).take (rest.length + 1)
      = '\n' :: rest := by
    rw [List.append_assoc, List.drop_left]
    exact List.take_left' rfl
  have hbehind : (out ++ '\n' :: rest ++ t :: tail).drop (out.length + 1 + (rest.length + 1))
      = tail := by
    have hlen : out.length + 1 + (rest.length + 1) = ((out ++ '\n' :: rest) ++ [t]).length := by
      simp only [List.length_append, List.length_cons, List.length_nil]
      omega
    rw [hlen, List.append_cons (out ++ '\n' :: rest) t tail]
    exact List.drop_left
  rw [memmove, if_pos hfits, htake, hmoved, hbehind, Option.bind_some, poke, if_pos (by
    simp only [List.length_append, List.length_cons, List.length_nil]
    omega)]
  congr 1
  rw [List.append_assoc, List.append_assoc, List.set_append_right _ _ (by omega)]
  simp

/-- **The loop**, from where it is up to the first NUL: `moved` is what it carries along behind it,
`tail` the room that is left. -/
theorem returnLoop_spec {moved : CStr} (rest : CStr) : ∀ {out tail : CStr}, '\x00' ∉ rest →
    (out ++ rest ++ '\x00' :: moved ++ tail).length = sprintBufSize →
    returnLoop (out ++ rest ++ '\x00' :: moved ++ tail) (out.length + rest.length + moved.length)
        out.length
      = if rest.count '\n' ≤ tail.length then
          some (out ++ withReturns rest ++ '\x00' :: moved ++ tail.drop (rest.count '\n'),
            out.length + rest.length + moved.length + rest.count '\n')
        else none := by
  induction rest with
  | nil =>
    intro out tail _ _
    have hget : (out ++ [] ++ '\x00' :: moved ++ tail)[out.length]? = some '\x00' := by simp
    rw [returnLoop, hget, if_pos (show List.count '\n' [] ≤ tail.length from Nat.zero_le _)]
    rfl
  | cons c rest ih =>
    intro out tail hnul hsize
    rw [List.mem_cons, not_or] at hnul
    have hget : (out ++ c :: rest ++ '\x00' :: moved ++ tail)[out.length]? = some c := by simp
    have hinside : out.length < sprintBufSize := by
      rw [← hsize]
      simp only [List.length_append, List.length_cons]
      omega
    rw [returnLoop, hget]
    simp only [if_neg (Ne.symm hnul.1), if_pos hinside]
    by_cases hc : '\n' = c
    · subst hc
      rw [if_pos rfl, List.count_cons_self]
      cases tail with
      | nil =>
        rw [if_neg (show ¬ rest.count '\n' + 1 ≤ ([] : CStr).length from Nat.not_succ_le_zero _),
          memmove, if_neg, Option.bind_none]
        simp only [List.length_append, List.length_cons, List.length_nil]
        omega
      | cons t tail =>
        have hbuf : out ++ '\n' :: rest ++ '\x00' :: moved ++ t :: tail
            = out ++ '\n' :: (rest ++ '\x00' :: moved) ++ t :: tail := by simp
        have hcount : out.length + ('\n' :: rest).length + moved.length + 1 - out.length
            = (rest ++ '\x00' :: moved).length + 1 := by
          simp only [List.length_append, List.length_cons]
          omega
        have hnext : out ++ '\n' :: '\r' :: (rest ++ '\x00' :: moved) ++ tail
            = (out ++ ['\n', '\r']) ++ rest ++ '\x00' :: moved ++ tail := by simp
        have hn : out.length + ('\n' :: rest).length + moved.length + 1
            = (out ++ ['\n', '\r']).length + rest.length + moved.length := by
          simp only [List.length_append, List.length_cons, List.length_nil]
          omega
        have hi : out.length + 2 = (out ++ ['\n', '\r']).length := by
          rw [List.length_append]
          rfl
        have hsize' : ((out ++ ['\n', '\r']) ++ rest ++ '\x00' :: moved ++ tail).length
            = sprintBufSize := by
          rw [← hsize]
          simp only [List.length_append, List.length_cons, List.length_nil]
          omega
        rw [hcount, hbuf, ← Option.bind_assoc, push_newline, Option.bind_some, hnext, hn, hi,
          ih hnul.2 hsize', List.drop_succ_cons, withReturns_cons, if_pos rfl, ← hn]
        by_cases hfits : rest.count '\n' ≤ tail.length
        · rw [if_pos hfits, if_pos (show _ ≤ (t :: tail).length from Nat.succ_le_succ hfits),
            List.append_assoc out ['\n', '\r'], Nat.add_assoc, Nat.add_comm 1]
        · rw [if_neg hfits, if_neg (show ¬ rest.count '\n' + 1 ≤ (t :: tail).length from
            fun h => hfits (Nat.le_of_succ_le_succ h))]
    · rw [if_neg hc, List.count_cons_of_ne (Ne.symm hc)]
      have hbuf : out ++ c :: rest ++ '\x00' :: moved ++ tail
          = (out ++ [c]) ++ rest ++ '\x00' :: moved ++ tail := by simp
      have hn : out.length + (c :: rest).length + moved.length
          = (out ++ [c]).length + rest.length + moved.length := by
        simp only [List.length_append, List.length_cons, List.length_nil]
        omega
      have hi : out.length + 1 = (out ++ [c]).length := by
        rw [List.length_append]
        rfl
      rw [hbuf] at hsize ⊢
      rw [hn, hi, ih hnul.2 hsize, withReturns_cons, if_neg (Ne.symm hc), List.append_assoc out [c]]

/-! ## §4 The call -/

/-- The message falls apart at its first NUL. -/
theorem printf_eq {around : Int → Char} {buf fmt : CStr} {args : List VaArg} {f : Formatted}
    (hsize : buf.length = sprintBufSize) (hf : vsprintf around fmt args = some f)
    (hshort : f.str.length < 1024) {before behind : CStr} (hstr : f.str = before ++ behind)
    (hbefore : '\x00' ∉ before) (hbehind : behind = [] ∨ behind.head? = some '\x00') :
    (printf around buf fmt args).map Printed.written
      = if f.str.length + before.count '\n' < 1024 then some (withReturns before ++ behind)
        else none := by
  obtain ⟨moved, hmoved⟩ : ∃ moved, behind ++ ['\x00'] = '\x00' :: moved := by
    cases behind with
    | nil => exact ⟨[], rfl⟩
    | cons c behind =>
      rw [List.head?_cons, Option.some.injEq] at hbehind
      rw [hbehind.resolve_left (List.cons_ne_nil _ _)]
      exact ⟨behind ++ ['\x00'], rfl⟩
  have hlen : moved.length = behind.length := by
    have := congrArg List.length hmoved
    simp only [List.length_append, List.length_cons, List.length_nil] at this
    omega
  have hn : f.str.length = before.length + behind.length := by
    rw [hstr, List.length_append]
  have hbuf : f.str ++ '\x00' :: buf.drop (f.str.length + 1)
      = [] ++ before ++ '\x00' :: moved ++ buf.drop (f.str.length + 1) := by
    rw [← hmoved, hstr]
    simp
  have hroom : (buf.drop (f.str.length + 1)).length = 1024 - (f.str.length + 1) := by
    rw [List.length_drop, hsize]
    rfl
  have hwhole : ([] ++ before ++ '\x00' :: moved ++ buf.drop (f.str.length + 1)).length
      = sprintBufSize := by
    rw [← hbuf, List.length_append, List.length_cons, hroom, sprintBufSize]
    omega
  have hloop := returnLoop_spec before hbefore hwhole
  rw [hroom, List.length_nil, Nat.zero_add, hlen, ← hn, ← hbuf, List.nil_append] at hloop
  rw [printf, hf, Option.bind_some]
  simp only [hsize]
  rw [if_pos (show f.str.length < sprintBufSize from hshort), hloop]
  by_cases hfits : f.str.length + before.count '\n' < 1024
  · rw [if_pos hfits, if_pos (by omega), Option.bind_some]
    have htake : (withReturns before ++ '\x00' :: moved
        ++ (buf.drop (f.str.length + 1)).drop (before.count '\n')).take
          (f.str.length + before.count '\n') = withReturns before ++ behind := by
      rw [← hmoved, ← List.append_assoc, List.append_assoc]
      apply List.take_left'
      rw [List.length_append, withReturns_length, hn]
      omega
    have hleft : f.str.length + before.count '\n' ≤ (withReturns before ++ '\x00' :: moved
        ++ (buf.drop (f.str.length + 1)).drop (before.count '\n')).length := by
      simp only [List.length_append, withReturns_length, List.length_cons, hlen, hn]
      omega
    simp only [if_pos hleft, htake, Option.map_some]
  · rw [if_neg hfits, if_neg (by omega)]
    rfl

theorem withReturns_append (s t : CStr) : withReturns (s ++ t) = withReturns s ++ withReturns t :=
  List.flatMap_append

/-- What is written as it stands is right if it has no newline. -/
theorem withReturns_eq_self {message : CStr} :
    withReturns message = message ↔ '\n' ∉ message := by
  rw [← List.count_eq_zero]
  constructor
  · intro h
    have hlen := withReturns_length message
    rw [h] at hlen
    omega
  · induction message with
    | nil => exact fun _ => rfl
    | cons c message ih =>
      intro h
      have hc : c ≠ '\n' := by
        intro hc
        rw [hc, List.count_cons_self] at h
        exact Nat.succ_ne_zero _ h
      rw [List.count_cons_of_ne hc] at h
      rw [withReturns_cons, if_neg hc, ih h]
      rfl

/-- **`printf`** writes the message with its carriage returns, and stays in the buffer, exactly if
there is room for them and no newline is behind a NUL. -/
theorem printf_right_iff (c : PrintfCall) : c.Right ↔ c.Fits := by
  have hsplit : c.message.str
      = c.message.str.takeWhile (· ≠ '\x00') ++ c.message.str.dropWhile (· ≠ '\x00') :=
    List.takeWhile_append_dropWhile.symm
  have hbefore : '\x00' ∉ c.message.str.takeWhile (· ≠ '\x00') := by
    intro h
    simpa using List.mem_takeWhile_imp h
  have hbehind : c.message.str.dropWhile (· ≠ '\x00') = [] ∨
      (c.message.str.dropWhile (· ≠ '\x00')).head? = some '\x00' := by
    have hnot := List.head?_dropWhile_not (· ≠ '\x00') c.message.str
    cases hdrop : c.message.str.dropWhile (· ≠ '\x00') with
    | nil => exact Or.inl rfl
    | cons d behind =>
      rw [hdrop] at hnot
      exact Or.inr (congrArg some (by simpa using hnot))
  have hprintf := printf_eq c.size c.formats c.short hsplit hbefore hbehind
  have hwhole : withReturns c.message.str = withReturns (c.message.str.takeWhile (· ≠ '\x00'))
      ++ withReturns (c.message.str.dropWhile (· ≠ '\x00')) := by
    rw [← withReturns_append, ← hsplit]
  have hcount : c.message.str.count '\n' = (c.message.str.takeWhile (· ≠ '\x00')).count '\n'
      + (c.message.str.dropWhile (· ≠ '\x00')).count '\n' := by
    rw [← List.count_append, ← hsplit]
  have hright : c.Right ↔ (printf c.around c.buf c.fmt c.args).map Printed.written
      = some (withReturns c.message.str) := Option.map_eq_some_iff.symm
  rw [hright, hprintf, hwhole, PrintfCall.Fits, hcount]
  constructor
  · intro h
    split at h
    · rename_i hfits
      have hnone := withReturns_eq_self.mp (List.append_cancel_left (Option.some.inj h)).symm
      exact ⟨by rw [List.count_eq_zero.mpr hnone]; exact hfits, hnone⟩
    · cases h
  · rintro ⟨hfits, hnone⟩
    rw [List.count_eq_zero.mpr hnone, Nat.add_zero] at hfits
    rw [if_pos hfits, withReturns_eq_self.mpr hnone]

/-- 1023 newlines. -/
def newlinesCall : PrintfCall where
  around := fun _ => '0'
  buf := List.replicate 1024 '\x00'
  size := List.length_replicate
  fmt := List.replicate 1023 '\n'
  args := []
  message := ⟨List.replicate 1023 '\n', []⟩
  formats := vsprintf_plain _ (fun h => absurd (List.eq_of_mem_replicate h) (by decide)) _
  short := by
    rw [List.length_replicate]
    decide

/-- **The first newline** of a message that fills the buffer pushes its NUL out. -/
theorem newlines_overrun : ¬ newlinesCall.Right := by
  rintro ⟨p, hp, -⟩
  have hprintf := printf_eq newlinesCall.size newlinesCall.formats newlinesCall.short
    (List.append_nil _).symm (fun h => absurd (List.eq_of_mem_replicate h) (by decide)) (Or.inl rfl)
  have hstr : newlinesCall.message.str = List.replicate 1023 '\n' := rfl
  rw [hp, hstr, List.length_replicate, List.count_replicate_self, if_neg (by decide)] at hprintf
  cases hprintf

end LiloBoot.ZImage
