/-
LiloBoot.DevPath.LengthTheorems — the buffers of composed paths.

`imagepath_to_path_description` and `path_description_to_string` add up a
length, allocate it, and write with a format string. The sums are kept here
beside the strings of `Parse`; a string fits if its NUL does. All do but one:
behind `&device;:` the length of a network path leaves out the parts before
and behind the file name, which the format string writes all the same.
-/
import LiloBoot.DevPath.NetTheorems

namespace LiloBoot.DevPath

/-! ## §1 The sums -/

/-- The length `imagepath_to_path_description` allocates for its path. -/
def pathnameLen (default : PathDescription) (pastDevice : Option CStr) (imagepath : CStr) : Nat :=
  let device := default.device.getD []
  let len :=
    match default.type, pastDevice with
    | .block, some p => device.length + 1 + p.length
    | .block, none =>
      let part := if 0 < default.part then decimalInt default.part else []
      let dir :=
        if imagepath.head? ≠ some '/' ∧ imagepath.head? ≠ some '\\' then default.directory.getD []
        else []
      device.length + 1 + part.length + 1 + dir.length + imagepath.length
    | .net, some p => device.length + 1 + p.length
    | .net, none =>
      let len := device.length + 1
      let len :=
        match default.netBefore with
        | some before => len + before.length
        | none => len
      let len := len + 1
      let len := len + imagepath.length
      match default.netAfter with
      | some after => len + (1 + after.length)
      | none => len
    | _, _ => 0
  len + 2

/-- The length `path_description_to_string` allocates. -/
def pathStringLen (input : PathDescription) : Nat :=
  let len := (input.device.getD []).length
  let len := len + (input.filename.getD []).length
  let len := len + (1 + 1 + 1)
  match input.type with
  | .iscsi | .block =>
    let part := if 0 < input.part then decimalInt input.part ++ [','] else [',']
    let len := len + part.length
    match input.directory with
    | some dir => len + dir.length
    | none => len
  | .net =>
    let len := len + (input.netBefore.getD []).length
    match input.netAfter with
    | some after => len + 1 + after.length
    | none => len
  | _ => len

/-- What `imagepath_to_path_description` writes to the heap, and the length it has there. -/
def pathnameWritten (default : PathDescription) (imagepath : CStr) : Option (CStr × Nat) :=
  let colon := strchr imagepath ':'
  if colon.isSome ∧ ¬ deviceMark.isPrefixOf imagepath then none
  else
    (defaultPathname default (colon.map List.tail) imagepath).map fun path =>
      (path, pathnameLen default (colon.map List.tail) imagepath)

/-- The string that is written is the one that is parsed. -/
theorem imagepathToPathDescription_written {default r : PathDescription} {imagepath path : CStr}
    {len : Nat} (h : pathnameWritten default imagepath = some (path, len)) (fw : Firmware)
    (fuel : Nat) :
    imagepathToPathDescription fw fuel false (some imagepath) r default
      = (parseDevicePath fw fuel (some path) .zero).map fun answer =>
          (answer.1, answer.2, default) := by
  simp only [pathnameWritten] at h
  split at h
  · cases h
  · rename_i hmark
    obtain ⟨path', hpath, heq⟩ := Option.map_eq_some_iff.mp h
    cases heq
    have hiscsi : ¬ default.type = .iscsi := by
      intro htype
      simp [defaultPathname, htype] at hpath
    simp only [imagepathToPathDescription, hmark, if_false, Bool.false_eq_true, hiscsi, hpath]

/-! ## §2 What fits -/

/-- The path fits what is allocated for it, with its NUL. -/
def PathnameFits (default : PathDescription) (imagepath : CStr) : Prop :=
  ∀ path len, pathnameWritten default imagepath = some (path, len) → path.length + 1 ≤ len

/-- The string of a description fits what is allocated for it. -/
def PathStringFits (input : PathDescription) : Prop :=
  ∀ path, pathDescriptionToString input = some path → path.length + 1 ≤ pathStringLen input

/-- `&device;:` and a network device with more than one character around the file name. -/
def Overflows (default : PathDescription) (imagepath : CStr) : Prop :=
  default.type = .net ∧ deviceMark <+: imagepath
    ∧ 1 < (default.netBefore.getD []).length + (if default.flags &&& flagIpv6 ≠ 0 then 0 else 1)
        + (default.netAfter.getD []).length

/-- The comma that an IPv6 path has not. -/
theorem length_comma (flags : Nat) : (if flags &&& flagIpv6 ≠ 0 then [] else [',']).length
    = if flags &&& flagIpv6 ≠ 0 then 0 else 1 := by
  split
  · rfl
  · rfl

theorem length_comma_le (flags : Nat) :
    (if flags &&& flagIpv6 ≠ 0 then [] else [',']).length ≤ 1 := by
  rw [length_comma]
  split
  · exact Nat.zero_le 1
  · exact Nat.le_refl 1

/-- The string of a description fits, for each of its types. -/
theorem pathString_fits (input : PathDescription) : PathStringFits input := by
  intro path h
  obtain ⟨part, type, flags, device, s1, s2, mac, filename⟩ := input
  cases device with
  | none => cases h
  | some device =>
    cases filename with
    | none => cases h
    | some filename =>
      cases type with
      | block | iscsi =>
        cases h
        simp only [pathStringLen, PathDescription.directory, Option.getD_some, List.length_append,
          List.length_cons]
        cases s2 with
        | none => simp only [Option.getD_none, List.length_nil]; omega
        | some dir => simp only [Option.getD_some]; omega
      | net =>
        obtain ⟨before, rfl, rfl⟩ := Option.map_eq_some_iff.mp h
        have hcomma := length_comma_le flags
        simp only [pathStringLen, PathDescription.netBefore, PathDescription.netAfter,
          Option.getD_some, List.length_append, List.length_cons]
        cases s2 with
        | none => simp only [Option.map_none, Option.getD_none, List.length_nil]; omega
        | some after => simp only [Option.map_some, Option.getD_some, List.length_cons]; omega
      | unset => cases h
      | unknown => cases h
      | invalid => cases h

theorem deviceMark_colon {imagepath : CStr} (h : deviceMark <+: imagepath) :
    ∃ p, imagepath = deviceMark ++ p ∧ strchr imagepath ':' = some (':' :: p) := by
  obtain ⟨p, rfl⟩ := h
  exact ⟨p, rfl, rfl⟩

/-- The path of an image without a device of its own fits. -/
theorem relative_pathname_fits {default : PathDescription} {imagepath path : CStr}
    (h : defaultPathname default none imagepath = some path) :
    path.length + 1 ≤ pathnameLen default none imagepath := by
  obtain ⟨part, type, flags, device, s1, s2, mac, filename⟩ := default
  cases type with
  | block =>
    cases h
    simp only [pathnameLen, List.length_append, List.length_cons]
    omega
  | net =>
    cases h
    have hcomma := length_comma_le flags
    simp only [pathnameLen, PathDescription.netBefore, PathDescription.netAfter,
      List.length_append, List.length_cons, Option.isNone_none, true_and, Option.getD_none]
    cases s1 with
    | none =>
      cases s2 with
      | none => simp only [Option.getD_none, Option.isSome_none, Bool.false_eq_true, if_false,
          List.length_nil]; omega
      | some after => simp only [Option.getD_none, Option.getD_some, Option.isSome_some, if_true,
          List.length_nil, List.length_cons]; omega
    | some before =>
      cases s2 with
      | none => simp only [Option.getD_none, Option.getD_some, Option.isSome_none,
          Bool.false_eq_true, if_false, List.length_nil]; omega
      | some after => simp only [Option.getD_some, Option.isSome_some, if_true, List.length_nil,
          List.length_cons]; omega
  | unset => cases h
  | unknown => cases h
  | invalid => cases h
  | iscsi => cases h

/-- Behind `&device;:` the sum has room for one character more. -/
theorem device_pathname_length {default : PathDescription} {imagepath p path : CStr}
    (h : defaultPathname default (some p) imagepath = some path) :
    path.length + 1 ≤ pathnameLen default (some p) imagepath ↔
      ¬ (default.type = .net ∧ 1 < (default.netBefore.getD []).length
        + (if default.flags &&& flagIpv6 ≠ 0 then 0 else 1)
        + (default.netAfter.getD []).length) := by
  obtain ⟨part, type, flags, device, s1, s2, mac, filename⟩ := default
  cases type with
  | block =>
    cases h
    simp only [pathnameLen, List.length_append, List.length_cons, reduceCtorEq, false_and,
      not_false_eq_true, iff_true]
    omega
  | net =>
    cases h
    simp only [pathnameLen, PathDescription.netBefore, PathDescription.netAfter,
      List.length_append, List.length_cons, Option.isNone_some, Bool.false_eq_true, false_and,
      if_false, List.length_nil, Option.getD_some, true_and, length_comma]
    omega
  | unset => cases h
  | unknown => cases h
  | invalid => cases h
  | iscsi => cases h

theorem pathname_fits_iff (default : PathDescription) (imagepath : CStr) :
    PathnameFits default imagepath ↔ ¬ Overflows default imagepath := by
  by_cases hmark : deviceMark <+: imagepath
  · obtain ⟨p, himage, hcolon⟩ := deviceMark_colon hmark
    have hwritten : pathnameWritten default imagepath
        = (defaultPathname default (some p) imagepath).map fun path =>
            (path, pathnameLen default (some p) imagepath) := by
      simp only [pathnameWritten, hcolon, Option.isSome_some, List.isPrefixOf_iff_prefix, hmark,
        not_true_eq_false, and_false, if_false, Option.map_some, List.tail_cons]
    rw [PathnameFits, hwritten, Overflows]
    simp only [hmark, true_and]
    constructor
    · rintro hfits ⟨hnet, hlong⟩
      obtain ⟨path, hpath⟩ : ∃ path, defaultPathname default (some p) imagepath = some path := by
        rw [defaultPathname, hnet]
        exact ⟨_, rfl⟩
      exact (device_pathname_length hpath).mp (hfits path _ (by rw [hpath]; rfl)) ⟨hnet, hlong⟩
    · intro hshort path len h
      obtain ⟨path', hpath, heq⟩ := Option.map_eq_some_iff.mp h
      cases heq
      exact (device_pathname_length hpath).mpr hshort
  · refine ⟨fun _ h => hmark h.2.1, fun _ path len h => ?_⟩
    simp only [pathnameWritten, List.isPrefixOf_iff_prefix, hmark, not_false_eq_true, and_true] at h
    split at h
    · cases h
    · rename_i hcolon
      rw [Option.not_isSome_iff_eq_none] at hcolon
      rw [hcolon, Option.map_none] at h
      obtain ⟨path', hpath, heq⟩ := Option.map_eq_some_iff.mp h
      cases heq
      exact relative_pathname_fits hpath

/-- **Composed paths fit what is allocated for them, but for `&device;:` on a network device with
more than one character around its file name.** -/
theorem composed_paths_fit (default : PathDescription) (imagepath : CStr)
    (input : PathDescription) :
    (PathnameFits default imagepath ↔ ¬ Overflows default imagepath) ∧ PathStringFits input :=
  ⟨pathname_fits_iff default imagepath, pathString_fits input⟩

/-- What `net:192.168.1.1,yaboot` is parsed into. -/
def addressDescription : PathDescription :=
  { PathDescription.zero with
    type := .net, device := some "net".toList, s1 := some "192.168.1.1".toList
    filename := some "yaboot".toList }

/-- For `&device;:vmlinux` there are 13 bytes, and 24 are written. -/
theorem device_path_overflows :
    parseDevicePath netFirmware 40 (some "net:192.168.1.1,yaboot".toList) .zero
        = some (true, addressDescription)
      ∧ pathnameWritten addressDescription "&device;:vmlinux".toList
        = some ("net:192.168.1.1,vmlinux".toList, 13)
      ∧ ¬ PathnameFits addressDescription "&device;:vmlinux".toList := by
  have hwritten : pathnameWritten addressDescription "&device;:vmlinux".toList
      = some ("net:192.168.1.1,vmlinux".toList, 13) := by
    decide
  refine ⟨by decide +kernel, hwritten, fun h => ?_⟩
  exact absurd (h _ _ hwritten) (by decide)

end LiloBoot.DevPath
