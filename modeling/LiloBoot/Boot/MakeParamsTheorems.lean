/-
LiloBoot.Boot.MakeParamsTheorems — what the command line says and how long it is.

Behind every part the buffer holds the line so far, `q` is at its end, and no
more than one byte behind `q` has been touched. The line is right whatever its
length; the buffer holds 2047 characters of it.
-/
import LiloBoot.Boot.MakeParams
import LiloBoot.Boot.Params

namespace LiloBoot.Boot

open LiloBoot.Cfg

/-! ## §1 The line -/

/-- A part that is there only with its option. -/
def part (f : CStr → CStr) (value : Option CStr) : CStr := (value.map f).getD []

def flagPart (flag : Bool) (text : CStr) : CStr := if flag then text else []

/-- What the documentation of the options makes of the command line. -/
def commandLine (v : ParamValues) (params : Option CStr) : CStr :=
  match v.literal with
  | some p => p ++ part (fun params => (if p ≠ [] then [' '] else []) ++ params) params
  | none =>
    part (fun p => rootPrefix ++ p ++ [' ']) v.root ++ flagPart v.readOnly roWord
      ++ flagPart v.readWrite rwWord ++ part (fun p => ramdiskPrefix ++ p ++ [' ']) v.ramdisk
      ++ flagPart v.novideo (videoWord ++ [' ']) ++ part (fun p => p ++ [' ']) v.append
      ++ params.getD []

/-- The length of the line: six for `root=` and a space, nine for `ramdisk=` and a space. -/
def lineLength (v : ParamValues) (params : Option CStr) : Nat :=
  match v.literal with
  | some p => p.length + (params.map fun params => (if p ≠ [] then 1 else 0) + params.length).getD 0
  | none =>
    (v.root.map fun p => 6 + p.length).getD 0 + v.readOnly.toNat * 3 + v.readWrite.toNat * 3
      + (v.ramdisk.map fun p => 9 + p.length).getD 0 + v.novideo.toNat * 13
      + (v.append.map fun p => 1 + p.length).getD 0 + (params.getD []).length

/-- The string in the buffer. -/
def ParamsBuffer.Holds (b : ParamsBuffer) (s : CStr) : Prop :=
  (∀ i < s.length, b.mem i = s.getD i nul) ∧ b.mem s.length = nul

/-- All that is written lies in the buffer, and the result is the line. -/
structure MakesParams (v : ParamValues) (params : Option CStr) : Prop where
  inside : (makeParams v params).touched ≤ paramsBufferSize
  line : (makeParams v params).Holds (commandLine v params)

variable {b : ParamsBuffer} {s t name value : CStr} {c : Char}

theorem commandLine_length (v : ParamValues) (params : Option CStr) :
    (commandLine v params).length = lineLength v params := by
  have hpart : ∀ (f : CStr → CStr) (g : CStr → Nat) (value : Option CStr),
      (∀ p, (f p).length = g p) → (part f value).length = (value.map g).getD 0 := by
    intro f g value h
    cases value with
    | none => rfl
    | some p => exact h p
  have hflag : ∀ (flag : Bool) (text : CStr),
      (flagPart flag text).length = flag.toNat * text.length := by
    intro flag text
    cases flag with
    | false => simp [flagPart]
    | true => simp [flagPart]
  rw [commandLine, lineLength]
  cases v.literal with
  | some p =>
    simp only [List.length_append]
    rw [hpart _ (fun params => (if p ≠ [] then 1 else 0) + params.length)]
    intro params
    rw [List.length_append]
    split <;> rfl
  | none =>
    simp only [List.length_append, hflag]
    rw [hpart _ (fun p => 6 + p.length), hpart _ (fun p => 9 + p.length),
      hpart _ (fun p => 1 + p.length)]
    · rfl
    · intro p
      rw [List.length_append, Nat.add_comm]
      rfl
    · intro p
      rw [List.length_append, List.length_append, ramdiskPrefix]
      simp only [List.length_cons, List.length_nil]
      omega
    · intro p
      rw [List.length_append, List.length_append, rootPrefix]
      simp only [List.length_cons, List.length_nil]
      omega

/-! ## §2 The buffer between the parts -/

/-- The line so far stands before `q`. -/
structure ParamsBuffer.Before (b : ParamsBuffer) (s : CStr) : Prop where
  q : b.q = s.length
  mem : ∀ i < s.length, b.mem i = s.getD i nul
  touched : b.touched ≤ s.length + 1

theorem getD_append (s t : CStr) (i : Nat) : (s ++ t).getD i nul
    = if i < s.length then s.getD i nul else t.getD (i - s.length) nul := by
  split
  · rename_i h
    exact List.getD_append _ _ _ _ h
  · rename_i h
    exact List.getD_append_right _ _ _ _ (Nat.le_of_not_lt h)

/-- A `strcpy` to the end of the line. -/
theorem ParamsBuffer.Before.strcpy (h : b.Before s) (t : CStr) :
    (b.strcpy b.q t).Holds (s ++ t)
      ∧ (b.strcpy b.q t).touched = s.length + t.length + 1 := by
  obtain ⟨hq, hmem, htouched⟩ := h
  refine ⟨⟨fun i hi => ?_, ?_⟩, ?_⟩
  · rw [List.length_append] at hi
    rw [getD_append]
    simp only [ParamsBuffer.strcpy, hq]
    by_cases hlt : i < s.length
    · rw [if_neg (by omega), if_neg (by omega), if_pos hlt]
      exact hmem i hlt
    · rw [if_pos (by omega), if_neg hlt]
  · rw [List.length_append]
    simp only [ParamsBuffer.strcpy, hq]
    rw [if_neg (by omega), if_pos trivial]
  · simp only [ParamsBuffer.strcpy, hq]
    omega

theorem ParamsBuffer.Before.word (h : b.Before s) (t : CStr) : (b.word t).Before (s ++ t) := by
  obtain ⟨⟨hmem, -⟩, htouched⟩ := h.strcpy t
  refine ⟨?_, hmem, ?_⟩
  · rw [List.length_append, ← h.q]
    rfl
  · rw [List.length_append]
    exact Nat.le_of_eq htouched

theorem ParamsBuffer.Before.push (h : b.Before s) (c : Char) : (b.push c).Before (s ++ [c]) := by
  obtain ⟨hq, hmem, htouched⟩ := h
  refine ⟨?_, fun i hi => ?_, ?_⟩
  · rw [List.length_append, ← hq]
    rfl
  · rw [List.length_append, List.length_singleton] at hi
    rw [getD_append]
    show Function.update b.mem b.q c i = _
    rw [hq]
    by_cases hlt : i < s.length
    · rw [if_pos hlt, Function.update_of_ne (Nat.ne_of_lt hlt)]
      exact hmem i hlt
    · have hlast : i = s.length := by omega
      rw [if_neg hlt, hlast, Function.update_self, Nat.sub_self]
      rfl
  · rw [List.length_append, List.length_singleton]
    show max b.touched (b.q + 1) ≤ _
    omega

/-- A word and a space. -/
theorem ParamsBuffer.Before.spaced (h : b.Before s) (t : CStr) :
    ((b.word t).push ' ').Before (s ++ (t ++ [' '])) := by
  rw [← List.append_assoc]
  exact (h.word t).push ' '

theorem ParamsBuffer.Before.option (h : b.Before s) (name value : CStr) :
    (b.option name value).Before (s ++ (name ++ value ++ [' '])) := by
  have hvalue := (h.word name).spaced value
  rw [List.append_assoc] at hvalue
  rw [List.append_assoc]
  exact hvalue

/-- Parts that may be missing. -/
theorem ParamsBuffer.Before.part (h : b.Before s) {f : CStr → ParamsBuffer}
    {g : CStr → CStr} (hf : ∀ p, (f p).Before (s ++ g p)) (value : Option CStr) :
    (value.elim b f).Before (s ++ Boot.part g value) := by
  cases value with
  | none =>
    rw [Boot.part, Option.map_none, Option.getD_none, List.append_nil]
    exact h
  | some p => exact hf p

/-- A part with a flag. -/
theorem ParamsBuffer.Before.flag (h : b.Before s) {b' : ParamsBuffer} (h' : b'.Before (s ++ t))
    (flag : Bool) : (if flag then b' else b).Before (s ++ flagPart flag t) := by
  cases flag with
  | false =>
    show b.Before (s ++ [])
    rw [List.append_nil]
    exact h
  | true => exact h'

/-! ## §3 The result -/

/-- The buffer holds the line, and one byte behind it has been touched. -/
def ParamsBuffer.Done (b : ParamsBuffer) (s : CStr) : Prop := b.Holds s ∧ b.touched = s.length + 1

theorem ParamsBuffer.Before.copied (h : b.Before s) (t : CStr) :
    (b.strcpy b.q t).Done (s ++ t) := by
  obtain ⟨hholds, htouched⟩ := h.strcpy t
  exact ⟨hholds, by rw [List.length_append]; exact htouched⟩

/-- `*q = 0`. -/
theorem ParamsBuffer.Before.ended (h : b.Before s) :
    (b.poke b.q nul).Before s ∧ (b.poke b.q nul).Done s := by
  obtain ⟨hq, hmem, htouched⟩ := h
  have hsame : ∀ i < s.length, (b.poke b.q nul).mem i = s.getD i nul := by
    intro i hi
    show Function.update b.mem b.q nul i = _
    rw [hq, Function.update_of_ne (Nat.ne_of_lt hi)]
    exact hmem i hi
  have hmax : (b.poke b.q nul).touched = s.length + 1 := by
    show max b.touched (b.q + 1) = _
    omega
  refine ⟨⟨hq, hsame, Nat.le_of_eq hmax⟩, ⟨hsame, ?_⟩, hmax⟩
  show Function.update b.mem b.q nul s.length = nul
  rw [hq, Function.update_self]

theorem literalParams_line (h : b.Before []) (p : CStr) (params : Option CStr) :
    (literalParams p params b).Done
      (p ++ part (fun params => (if p ≠ [] then [' '] else []) ++ params) params) := by
  have hp : (b.word p).Before p := h.word p
  have hdone : (b.word p).Done p := h.copied p
  cases params with
  | none =>
    rw [part, Option.map_none, Option.getD_none, List.append_nil]
    exact hdone
  | some params =>
    show ((if p ≠ [] then (b.word p).push ' ' else b.word p).strcpy _ params).Done
      (p ++ ((if p ≠ [] then [' '] else []) ++ params))
    rw [← List.append_assoc]
    split
    · exact (hp.push ' ').copied params
    · rw [List.append_nil]
      exact hp.copied params

/-- **The line and its end**, without a limit. -/
theorem makeParams_line (v : ParamValues) (params : Option CStr) :
    (makeParams v params).Done (commandLine v params) := by
  have hstart : (⟨fun _ => nul, 0, 0⟩ : ParamsBuffer).Before [] :=
    ⟨rfl, fun i hi => absurd hi (Nat.not_lt_zero i), Nat.zero_le _⟩
  have hempty := hstart.ended.1
  cases hliteral : v.literal with
  | some p =>
    rw [makeParams, commandLine, hliteral]
    exact literalParams_line hempty p params
  | none =>
    rw [makeParams, commandLine, hliteral]
    have hroot := hempty.part (fun p => hempty.option rootPrefix p) v.root
    have hro := hroot.flag (hroot.word roWord) v.readOnly
    have hrw := hro.flag (hro.word rwWord) v.readWrite
    have hramdisk := hrw.part (fun p => hrw.option ramdiskPrefix p) v.ramdisk
    have hvideo := hramdisk.flag (hramdisk.spaced videoWord) v.novideo
    have happend := hvideo.part (fun p => hvideo.spaced p) v.append
    obtain ⟨hended, hdone⟩ := happend.ended
    cases params with
    | none =>
      rw [Option.getD_none, List.append_nil]
      exact hdone
    | some params => exact hended.copied params

/-- **`make_params`** stays in its buffer and makes the line, if and only if the line has at most
2047 characters. -/
theorem makeParams_fits_iff (v : ParamValues) (params : Option CStr) :
    MakesParams v params ↔ lineLength v params ≤ 2047 := by
  obtain ⟨hline, htouched⟩ := makeParams_line v params
  rw [commandLine_length] at htouched
  constructor
  · intro h
    have hinside := h.inside
    rw [htouched, paramsBufferSize] at hinside
    omega
  · intro h
    refine ⟨?_, hline⟩
    rw [htouched, paramsBufferSize]
    omega

/-! ## §4 Long values and a long line -/

/-- `MAX_TOKEN`: a value is shorter. -/
def maxToken : Nat := 512

/-- An image with three values as long as a value can be. -/
def longItems : List (CStr × Option CStr) :=
  [(imageName, some "/vmlinux".toList), (labelName, some ['a']),
   ("root".toList, some (List.replicate 511 'r')),
   ("ramdisk".toList, some (List.replicate 511 'd')),
   ("append".toList, some (List.replicate 511 'p'))]

/-- Its options. -/
def longValues : ParamValues where
  literal := none
  root := some (List.replicate 511 'r')
  readOnly := false
  readWrite := false
  ramdisk := some (List.replicate 511 'd')
  novideo := false
  append := some (List.replicate 511 'p')

/-- What fits behind the label and a space on a line of the prompt. -/
def longArgs : CStr := List.replicate 508 'x'

/-- **The buffer overflows**: with this configuration and this line 2058 bytes are written. -/
theorem longValues_overflow :
    (∀ item ∈ longItems, (item.2.getD []).length < maxToken)
      ∧ paramValues (cfgItems (fun _ => true) (cfgStart 0) longItems) ['a'] = some longValues
      ∧ bufferEdit (some id) (('a' :: ' ' :: longArgs).map (fun c => (c.toNat : Int)) ++ [10]) []
        = some ('a' :: ' ' :: longArgs, [])
      ∧ wordSplit ('a' :: ' ' :: longArgs) = (some ['a'], some longArgs)
      ∧ (makeParams longValues (some longArgs)).touched = 2058
      ∧ ¬ MakesParams longValues (some longArgs) := by
  have htouched : (makeParams longValues (some longArgs)).touched = 2058 := by
    rw [(makeParams_line longValues (some longArgs)).2, commandLine_length]
    decide +kernel
  refine ⟨by decide +kernel, by decide +kernel, by decide +kernel, by decide +kernel, htouched,
    fun h => ?_⟩
  have hinside := h.inside
  rw [htouched, paramsBufferSize] at hinside
  omega

end LiloBoot.Boot
