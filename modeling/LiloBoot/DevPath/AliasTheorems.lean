/-
LiloBoot.DevPath.AliasTheorems — the default device as its own result.

`yaboot_main` resolves the `conf=` path with the default device as result.
The result is cleared first, so a path that needs the default device finds
nothing there, and one that is refused leaves its remains there.
-/
import LiloBoot.DevPath.Parse

namespace LiloBoot.DevPath

/-- A run with one object gives what a run with two gives, and a run that fails leaves the
default device as it was. -/
def AliasLaw (fw : Firmware) (fuel : Nat) (imagepath : Option CStr)
    (result defaultDevice : PathDescription) : Prop :=
  let two := imagepathToPathDescription fw fuel false imagepath result defaultDevice
  let one := imagepathToPathDescription fw fuel true imagepath defaultDevice defaultDevice
  one.map (·.1) = two.map (·.1)
    ∧ (two.map (·.1) = some true → one.map (·.2.1) = two.map (·.2.1))
    ∧ (one.map (·.1) = some false → one.map (·.2.2) = some defaultDevice)

/-- A path with a device of its own. -/
def FullPath (imagepath : CStr) : Prop :=
  (strchr imagepath ':').isSome ∧ ¬ deviceMark.isPrefixOf imagepath

instance (imagepath : CStr) : Decidable (FullPath imagepath) := by
  unfold FullPath
  infer_instance

/-- What is left in the result when the device of a full path is refused. -/
def refused (fw : Firmware) (imagepath : CStr) : PathDescription :=
  { PathDescription.zero with
    device := some (imagepath.takeWhile (· ≠ ':'))
    type := fw.devtype (imagepath.takeWhile (· ≠ ':')) }

/-- The condition: there is no path, or it is full and its device is one the parser handles, or
the default device holds nothing to lose. -/
def AliasSafe (fw : Firmware) (imagepath : Option CStr) (defaultDevice : PathDescription) : Prop :=
  match imagepath with
  | none => True
  | some imagepath =>
    if FullPath imagepath then
      fw.devtype (imagepath.takeWhile (· ≠ ':')) = .block
        ∨ fw.devtype (imagepath.takeWhile (· ≠ ':')) = .net
        ∨ defaultDevice = refused fw imagepath
    else defaultDevice = .zero

section Runs

variable {fw : Firmware} {fuel : Nat} {imagepath : CStr} {result defaultDevice : PathDescription}

/-- A full path does not look at the default device. -/
theorem full_path_run (same : Bool) (hfull : FullPath imagepath) :
    imagepathToPathDescription fw fuel same (some imagepath) result defaultDevice
      = (parseDevicePath fw fuel (some imagepath) .zero).map fun answer =>
          (answer.1, answer.2, if same then answer.2 else defaultDevice) := by
  have hcond : (strchr imagepath ':').isSome = true ∧ ¬ deviceMark.isPrefixOf imagepath = true := hfull
  simp only [imagepathToPathDescription]
  rw [if_pos hcond]
  cases same <;> rfl

/-- A path with no device of its own fails when the default device has been cleared. -/
theorem relative_run (hfull : ¬ FullPath imagepath) :
    imagepathToPathDescription fw fuel true (some imagepath) result defaultDevice
      = some (false, PathDescription.zero, PathDescription.zero) := by
  have hcond : ¬ ((strchr imagepath ':').isSome = true ∧ ¬ deviceMark.isPrefixOf imagepath = true) :=
    hfull
  simp only [imagepathToPathDescription]
  rw [if_neg hcond]
  rfl

/-- Cleared or separate, an empty default device gives the same. -/
theorem relative_run_zero (hfull : ¬ FullPath imagepath) :
    imagepathToPathDescription fw fuel false (some imagepath) result .zero
      = some (false, PathDescription.zero, PathDescription.zero) := by
  have hcond : ¬ ((strchr imagepath ':').isSome = true ∧ ¬ deviceMark.isPrefixOf imagepath = true) :=
    hfull
  simp only [imagepathToPathDescription]
  rw [if_neg hcond]
  rfl

/-- A device that is neither a block nor a network device is refused, and no other. -/
theorem parseDevicePath_refused :
    (fw.devtype (imagepath.takeWhile (· ≠ ':')) ≠ .block
        ∧ fw.devtype (imagepath.takeWhile (· ≠ ':')) ≠ .net
        ∧ parseDevicePath fw fuel (some imagepath) .zero = some (false, refused fw imagepath))
      ∨ ((fw.devtype (imagepath.takeWhile (· ≠ ':')) = .block
          ∨ fw.devtype (imagepath.takeWhile (· ≠ ':')) = .net)
        ∧ (parseDevicePath fw fuel (some imagepath) .zero).map (·.1) ≠ some false) := by
  simp only [parseDevicePath, show PathDescription.zero.type = .unset from rfl, if_true, refused]
  cases htype : fw.devtype (imagepath.takeWhile fun c => decide (c ≠ ':')) with
  | block => exact .inr ⟨.inl rfl, by simp⟩
  | net =>
    refine .inr ⟨.inr rfl, ?_⟩
    intro h
    obtain ⟨answer, hanswer, hcode⟩ := Option.map_eq_some_iff.mp h
    obtain ⟨d, -, rfl⟩ := Option.map_eq_some_iff.mp hanswer
    cases hcode
  | unset => exact .inl ⟨by decide, by decide, rfl⟩
  | unknown => exact .inl ⟨by decide, by decide, rfl⟩
  | invalid => exact .inl ⟨by decide, by decide, rfl⟩
  | iscsi => exact .inl ⟨by decide, by decide, rfl⟩

end Runs

/-- **One object for both**: the default device may be its own result exactly if the path has a
device of its own that the parser handles, or nothing is lost. -/
theorem alias_law_iff (fw : Firmware) (fuel : Nat) (imagepath : Option CStr)
    (result defaultDevice : PathDescription) :
    AliasLaw fw fuel imagepath result defaultDevice ↔ AliasSafe fw imagepath defaultDevice := by
  cases imagepath with
  | none =>
    refine ⟨fun _ => trivial, fun _ => ⟨rfl, fun h => ?_, fun _ => rfl⟩⟩
    cases h
  | some imagepath =>
    simp only [AliasLaw, AliasSafe]
    by_cases hfull : FullPath imagepath
    · rw [if_pos hfull, full_path_run true hfull, full_path_run false hfull]
      rcases @parseDevicePath_refused fw fuel imagepath with
        ⟨hblock, hnet, hparse⟩ | ⟨htype, hcode⟩
      · rw [hparse]
        constructor
        · rintro ⟨-, -, hkept⟩
          exact .inr (.inr (Option.some.inj (hkept rfl)).symm)
        · rintro (h | h | rfl)
          · exact absurd h hblock
          · exact absurd h hnet
          · exact ⟨rfl, fun _ => rfl, fun _ => rfl⟩
      · constructor
        · intro _
          exact htype.imp_right .inl
        · intro _
          refine ⟨by simp only [Option.map_map]; rfl, fun _ => by simp only [Option.map_map]; rfl,
            fun h => ?_⟩
          rw [Option.map_map] at h
          exact absurd h hcode
    · rw [if_neg hfull, relative_run hfull]
      constructor
      · rintro ⟨-, -, hkept⟩
        exact (Option.some.inj (hkept rfl)).symm
      · rintro rfl
        rw [relative_run_zero hfull]
        exact ⟨rfl, fun _ => rfl, fun _ => rfl⟩

/-- The boot device `hd`, partition 9. -/
def bootDisk : PathDescription :=
  { PathDescription.zero with part := 9, type := .block, device := some ['h', 'd'] }

/-- A relative `conf=` path is found with a result of its own, and fails and clears the boot
device without one. -/
theorem relative_conf_fails :
    (imagepathToPathDescription ⟨fun _ => .block, fun _ mac => mac, none, none⟩ 0 false
        (some ['y', '.', 'c']) .zero bootDisk).map (·.1) = some true
      ∧ imagepathToPathDescription ⟨fun _ => .block, fun _ mac => mac, none, none⟩ 0 true
          (some ['y', '.', 'c']) bootDisk bootDisk
        = some (false, .zero, .zero)
      ∧ ¬ AliasLaw ⟨fun _ => .block, fun _ mac => mac, none, none⟩ 0 (some ['y', '.', 'c']) .zero
          bootDisk := by
  have hone : imagepathToPathDescription ⟨fun _ => .block, fun _ mac => mac, none, none⟩ 0 true
      (some ['y', '.', 'c']) bootDisk bootDisk = some (false, .zero, .zero) := by decide +kernel
  refine ⟨by decide +kernel, hone, fun h => ?_⟩
  have hkept := h.2.2 (by rw [hone]; rfl)
  rw [hone] at hkept
  exact absurd hkept (by decide +kernel)

end LiloBoot.DevPath
