/-
LiloBoot.DevPath.BlockTheorems — block device paths, printed and read back.

A block device path ends in `part,directory/file`, all in one string without
escapes. The description the parser makes of it has a certain shape, and for
a description of that shape the printed string splits at the same comma and
the same delimiter. A description without a partition number is printed with
an empty one, and `strtol` finds none in front of the comma.
-/
import LiloBoot.DevPath.Parse

namespace LiloBoot.DevPath

/-! ## §1 Searching a string -/

theorem strchr_cons_self (c : Char) (s : CStr) : strchr (c :: s) c = some (c :: s) := by
  simp [strchr]

theorem strchr_eq_none {s : CStr} {c : Char} : strchr s c = none ↔ c ∉ s := by
  induction s with
  | nil => simp [strchr]
  | cons d s ih =>
    by_cases hd : d = c
    · rw [hd, strchr_cons_self]
      simp
    · have hstep : strchr (d :: s) c = strchr s c := by
        rw [strchr, List.dropWhile_cons_of_pos (by simpa using hd), ← strchr]
      rw [hstep, ih]
      simp [Ne.symm hd]

/-- The first `c` of a string is the one behind a text without it. -/
theorem strchr_append {pre : CStr} {c : Char} (h : c ∉ pre) (s : CStr) :
    strchr (pre ++ c :: s) c = some (c :: s) := by
  induction pre with
  | nil => exact strchr_cons_self c s
  | cons d pre ih =>
    rw [List.mem_cons, not_or] at h
    rw [List.cons_append, strchr, List.dropWhile_cons_of_pos (by simpa using Ne.symm h.1), ← strchr]
    exact ih h.2

/-- What stands before the first `c`. -/
theorem takeWhile_text {t : CStr} {c : Char} (h : c ∉ t) (s : CStr) :
    (t ++ c :: s).takeWhile (· ≠ c) = t := by
  rw [List.takeWhile_append_of_pos, List.takeWhile_cons_of_neg (by simp), List.append_nil]
  intro d hd
  simpa using fun heq : d = c => h (heq ▸ hd)

theorem strrchr_none {s : CStr} {c : Char} (h : c ∉ s) : strrchr s c = none := by
  induction s with
  | nil => rfl
  | cons d s ih =>
    rw [List.mem_cons, not_or] at h
    rw [strrchr, ih h.2]
    exact if_neg (Ne.symm h.1)

/-- The last `c` of a string is the one before a text without it. -/
theorem strrchr_append {s : CStr} {c : Char} (h : c ∉ s) (pre : CStr) :
    strrchr (pre ++ c :: s) c = some (c :: s) := by
  induction pre with
  | nil =>
    rw [List.nil_append, strrchr, strrchr_none h]
    exact if_pos rfl
  | cons d pre ih => rw [List.cons_append, strrchr, ih]

/-- Every string is split by its last `c`, or has none. -/
theorem exists_last (s : CStr) (c : Char) :
    c ∉ s ∨ ∃ pre post, s = pre ++ c :: post ∧ c ∉ post := by
  induction s with
  | nil => exact .inl List.not_mem_nil
  | cons d s ih =>
    rcases ih with hno | ⟨pre, post, rfl, hpost⟩
    · by_cases hd : c = d
      · exact .inr ⟨[], s, by rw [hd]; rfl, hno⟩
      · exact .inl (by rw [List.mem_cons, not_or]; exact ⟨hd, hno⟩)
    · exact .inr ⟨d :: pre, post, rfl, hpost⟩

/-! ## §2 What the parser makes of a block path -/

/-- A directory and a file name as the last delimiter separates them. -/
inductive Split : Option CStr → CStr → Prop where
  | file {name : CStr} (slash : '/' ∉ name) (backslash : '\\' ∉ name) : Split none name
  | slash {pre name : CStr} (slash : '/' ∉ name) : Split (some (pre ++ ['/'])) name
  | backslash {pre name : CStr} (slash : '/' ∉ pre ++ name) (backslash : '\\' ∉ name) :
    Split (some (pre ++ ['\\'])) name

/-- The text behind the partition number. -/
def fullName (dir : Option CStr) (name : CStr) : CStr := dir.getD [] ++ name

/-- Every text has such a split. -/
theorem exists_split (pd : CStr) : ∃ dir name, Split dir name ∧ pd = fullName dir name := by
  rcases exists_last pd '/' with hslash | ⟨pre, post, rfl, hpost⟩
  · rcases exists_last pd '\\' with hback | ⟨pre, post, rfl, hpost⟩
    · exact ⟨none, pd, .file hslash hback, rfl⟩
    · refine ⟨some (pre ++ ['\\']), post, .backslash (fun hin => hslash ?_) hpost, by simp [fullName]⟩
      rcases List.mem_append.mp hin with hin | hin
      · exact List.mem_append_left _ hin
      · exact List.mem_append_right _ (List.mem_cons_of_mem _ hin)
  · exact ⟨some (pre ++ ['/']), post, .slash hpost, by simp [fullName]⟩

/-- The number a path starts with, as `path_part` holds it. -/
def partOf (options : CStr) : Int :=
  if (simpleStrtol options 10).1 ≤ 0 then -1 else (simpleStrtol options 10).1

/-- The text behind the first comma, or all of it. -/
def behindComma (options : CStr) : CStr :=
  match strchr options ',' with
  | some comma => comma.tail
  | none => options

theorem take_delimiter (pre name : CStr) (c : Char) :
    (pre ++ c :: name).take ((pre ++ c :: name).length - (c :: name).length + 1) = pre ++ [c] := by
  have hlen : (pre ++ c :: name).length - (c :: name).length + 1 = (pre ++ [c]).length := by
    simp only [List.length_append, List.length_cons, List.length_nil]
    omega
  rw [hlen, show pre ++ c :: name = (pre ++ [c]) ++ name by simp, List.take_left']
  rfl

/-- The parser finds the split. -/
theorem parseBlockDevice_split {result : PathDescription} {options : CStr} {dir : Option CStr}
    {name : CStr} (hclear : result.s2 = none) (hsplit : Split dir name)
    (hpd : behindComma options = fullName dir name) :
    parseBlockDevice result options
      = { result with part := partOf options, s2 := dir, filename := some name } := by
  have hstart : parseBlockDevice result options =
      match (match strrchr (behindComma options) '/' with
        | some t => some t
        | none => strrchr (behindComma options) '\\') with
      | some t =>
        { result with
          part := partOf options
          s2 := some ((behindComma options).take ((behindComma options).length - t.length + 1))
          filename := some t.tail }
      | none => { result with part := partOf options, filename := some (behindComma options) } := rfl
  rw [hstart, hpd]
  cases hsplit with
  | file hslash hback =>
    simp only [fullName, Option.getD_none, List.nil_append, strrchr_none hslash, strrchr_none hback]
    rw [← hclear]
  | @slash pre _ hslash =>
    have hname : fullName (some (pre ++ ['/'])) name = pre ++ '/' :: name := by simp [fullName]
    rw [hname, strrchr_append hslash]
    simp only [take_delimiter, List.tail_cons]
  | @backslash pre _ hslash hback =>
    have hname : fullName (some (pre ++ ['\\'])) name = pre ++ '\\' :: name := by simp [fullName]
    have hno : '/' ∉ pre ++ '\\' :: name := by
      intro hin
      refine hslash ?_
      rcases List.mem_append.mp hin with hin | hin
      · exact List.mem_append_left _ hin
      · rcases List.mem_cons.mp hin with hin | hin
        · exact absurd hin (by decide)
        · exact List.mem_append_right _ hin
    rw [hname, strrchr_none hno, strrchr_append hback]
    simp only [take_delimiter, List.tail_cons]

/-- The IPv4 options set the three texts of a description, and nothing else. -/
theorem getTftpIpv4Options_frame (fw : Firmware) (path : PathDescription) (options : CStr)
    (offset : Nat) : ∃ s1 s2 filename, getTftpIpv4Options fw path options offset
      = { path with s1 := s1, s2 := s2, filename := filename } := by
  simp only [getTftpIpv4Options]
  split
  · exact ⟨_, _, _, rfl⟩
  · split
    · rename_i cas hcas
      simp only [getTftpIpv4IbmCAS] at hcas
      split at hcas
      · cases hcas
      · cases hcas
        split <;> exact ⟨_, _, _, rfl⟩
    · split
      · split <;> exact ⟨_, _, _, rfl⟩
      · exact ⟨_, _, _, rfl⟩

theorem getTftpIpv4Options_type (fw : Firmware) (path : PathDescription) (options : CStr)
    (offset : Nat) : (getTftpIpv4Options fw path options offset).type = path.type := by
  obtain ⟨s1, s2, filename, h⟩ := getTftpIpv4Options_frame fw path options offset
  rw [h]

/-- The IPv6 options set the flags too. -/
theorem getTftpIpv6Options_frame {fuel : Nat} {path d : PathDescription} {options : CStr}
    {offset : Nat} (h : getTftpIpv6Options fuel path options offset = some d) :
    ∃ flags s1 s2 filename,
      d = { path with flags := flags, s1 := s1, s2 := s2, filename := filename } := by
  simp only [getTftpIpv6Options, Option.bind_eq_bind] at h
  obtain ⟨⟨flags, len⟩, -, h⟩ := Option.bind_eq_some_iff.mp h
  simp only at h
  split at h
  · cases h
    exact ⟨_, _, _, _, rfl⟩
  · split at h
    · cases h
      exact ⟨_, _, _, _, rfl⟩
    · cases h
      exact ⟨_, _, _, _, rfl⟩

theorem getTftpIpv6Options_type {fuel : Nat} {path d : PathDescription} {options : CStr}
    {offset : Nat} (h : getTftpIpv6Options fuel path options offset = some d) :
    d.type = path.type := by
  obtain ⟨flags, s1, s2, filename, rfl⟩ := getTftpIpv6Options_frame h
  rfl

/-- A network path stays one, or turns out to be for iSCSI. -/
theorem parseNetDevice_type {fw : Firmware} {fuel : Nat} {path d : PathDescription}
    {options : CStr} (h : parseNetDevice fw fuel path options = some d) :
    d.type = path.type ∨ d.type = .iscsi := by
  simp only [parseNetDevice, Option.bind_eq_bind] at h
  obtain ⟨⟨flags, offset⟩, -, h⟩ := Option.bind_eq_some_iff.mp h
  simp only at h
  split at h
  · cases h
    right
    simp only [getIscsiOptions]
    split <;> rfl
  · left
    simp only [getTftpOptions] at h
    split at h
    · have htype := getTftpIpv6Options_type h
      exact htype
    · cases h
      exact getTftpIpv4Options_type fw _ _ _

/-- A network path keeps its device and its address. -/
theorem parseNetDevice_frame {fw : Firmware} {fuel : Nat} {path d : PathDescription}
    {options : CStr} (h : parseNetDevice fw fuel path options = some d) (hnet : d.type = .net) :
    d.device = path.device ∧ d.mac = path.mac := by
  simp only [parseNetDevice, Option.bind_eq_bind] at h
  obtain ⟨⟨flags, offset⟩, -, h⟩ := Option.bind_eq_some_iff.mp h
  simp only at h
  split at h
  · cases h
    simp only [getIscsiOptions] at hnet
    split at hnet
    · cases hnet
    · cases hnet
  · simp only [getTftpOptions] at h
    split at h
    · obtain ⟨flags, s1, s2, filename, rfl⟩ := getTftpIpv6Options_frame h
      exact ⟨rfl, rfl⟩
    · obtain ⟨s1, s2, filename, hrun⟩ := getTftpIpv4Options_frame fw { path with flags := flags }
        options offset
      rw [Option.some.injEq, hrun] at h
      rw [← h]
      exact ⟨rfl, rfl⟩

/-- A description of a block device path. -/
theorem parseDevicePath_block {fw : Firmware} {fuel : Nat} {imagepath : CStr}
    {d : PathDescription}
    (h : parseDevicePath fw fuel (some imagepath) .zero = some (true, d)) (hblock : d.type = .block) :
    ∃ device dir name part, ':' ∉ device ∧ fw.devtype device = .block ∧ Split dir name
      ∧ (part = -1 ∨ 0 < part ∧ part < 2 ^ 31)
      ∧ d = { PathDescription.zero with
              part := part, type := .block, device := some device, s2 := dir, filename := some name } := by
  have hdevice : ':' ∉ imagepath.takeWhile (· ≠ ':') := by
    intro hin
    simpa using List.mem_takeWhile_imp hin
  simp only [parseDevicePath, show PathDescription.zero.type = .unset from rfl, if_true] at h
  generalize imagepath.takeWhile (· ≠ ':') = device at h hdevice
  cases htype : fw.devtype device with
  | block =>
    rw [htype] at h
    cases h
    obtain ⟨dir, name, hsplit, hpd⟩ := exists_split (behindComma (imagepath.drop (device.length + 1)))
    rw [parseBlockDevice_split rfl hsplit hpd]
    refine ⟨device, dir, name, _, hdevice, htype, hsplit, ?_, rfl⟩
    have hlt := (simpleStrtol_range (imagepath.drop (device.length + 1)) 10).2
    rw [partOf]
    split
    · exact .inl rfl
    · exact .inr ⟨by omega, hlt⟩
  | net =>
    rw [htype] at h
    obtain ⟨d', hnet, hd⟩ := Option.map_eq_some_iff.mp h
    cases hd
    rcases parseNetDevice_type hnet with hnet | hnet
    · exact absurd (hblock.symm.trans hnet) (by simp)
    · exact absurd (hblock.symm.trans hnet) (by decide)
  | unset => rw [htype] at h; cases h
  | unknown => rw [htype] at h; cases h
  | invalid => rw [htype] at h; cases h
  | iscsi => rw [htype] at h; cases h

/-! ## §3 The round trip -/

/-- The string printed for `d` is read as a description with the same parts. -/
def ReadsBack (fw : Firmware) (fuel : Nat) (d : PathDescription) : Prop :=
  ∃ s d', pathDescriptionToString d = some s
    ∧ parseDevicePath fw fuel (some s) .zero = some (true, d')
    ∧ d'.device = d.device ∧ d'.part = d.part ∧ d'.directory = d.directory
    ∧ d'.filename = d.filename

/-- The part number as it is printed. -/
def printedPart (part : Int) : CStr := if 0 < part then decimalInt part ++ [','] else [',']

/-- The number read back is the one printed. -/
theorem partOf_printed {part : Int} (hpart : part = -1 ∨ 0 < part ∧ part < 2 ^ 31) (pd : CStr) :
    partOf (printedPart part ++ pd) = part := by
  rcases hpart with rfl | ⟨hpos, hlt⟩
  · have hnone : (simpleStrtol (',' :: pd) 10).1 = 0 := by
      rw [simpleStrtol_plain (by simp)]
      rfl
    have hprint : printedPart (-1) ++ pd = ',' :: pd := rfl
    rw [hprint, partOf, hnone]
    exact if_pos (Int.le_refl 0)
  · obtain ⟨n, rfl⟩ : ∃ n : Nat, part = n := ⟨part.toNat, by omega⟩
    have hprint : printedPart (n : Int) ++ pd = decimal n ++ ',' :: pd := by
      rw [printedPart, if_pos hpos, decimalInt, if_neg (by omega), Int.natAbs_natCast]
      simp
    have hvalue : (simpleStrtol (decimal n ++ ',' :: pd) 10).1 = n := by
      rw [simpleStrtol_decimal (by omega) (by simp)]
    rw [hprint, partOf, hvalue]
    exact if_neg (by omega)

/-- The comma that is printed is the first one. -/
theorem behindComma_printed (part : Int) (pd : CStr) :
    behindComma (printedPart part ++ pd) = pd := by
  by_cases hpos : 0 < part
  · have hdigit : ',' ∉ decimalInt part := by
      rw [decimalInt, if_neg (by omega)]
      intro hin
      exact absurd (decimal_isDigit hin) (by decide)
    rw [printedPart, if_pos hpos, List.append_assoc, List.singleton_append, behindComma,
      strchr_append hdigit]
    rfl
  · rw [printedPart, if_neg hpos, List.singleton_append, behindComma, strchr_cons_self]
    rfl

/-- A path on a block device is split at its first colon. -/
theorem parseDevicePath_at {fw : Firmware} {device : CStr} (hdevice : ':' ∉ device)
    (htype : fw.devtype device = .block) (fuel : Nat) (options : CStr) :
    parseDevicePath fw fuel (some (device ++ ':' :: options)) .zero
      = some (true, parseBlockDevice
          { PathDescription.zero with type := .block, device := some device } options) := by
  have hdrop : (device ++ ':' :: options).drop (device.length + 1) = options := by
    rw [← List.drop_drop, List.drop_left]
    rfl
  simp only [parseDevicePath, show PathDescription.zero.type = .unset from rfl, if_true,
    takeWhile_text hdevice, hdrop, htype]

/-- A block path with a number and a name is read as such. -/
theorem parseDevicePath_printed {fw : Firmware} {device : CStr} (hdevice : ':' ∉ device)
    (htype : fw.devtype device = .block) {dir : Option CStr} {name : CStr}
    (hsplit : Split dir name) {part : Int} (hpart : part = -1 ∨ 0 < part ∧ part < 2 ^ 31)
    (fuel : Nat) :
    parseDevicePath fw fuel (some (device ++ ':' :: (printedPart part ++ fullName dir name))) .zero
      = some (true, { PathDescription.zero with
          part := part, type := .block, device := some device, s2 := dir, filename := some name }) := by
  rw [parseDevicePath_at hdevice htype, parseBlockDevice_split rfl hsplit (behindComma_printed part _),
    partOf_printed hpart]

/-- **Block paths read back**: a description the parser can make of a string has its printed form
read as itself. -/
theorem block_reads_back (fw : Firmware) (fuel : Nat) (imagepath : CStr) (d : PathDescription)
    (h : parseDevicePath fw fuel (some imagepath) .zero = some (true, d)) (hblock : d.type = .block) :
    ReadsBack fw fuel d := by
  obtain ⟨device, dir, name, part, hdevice, htype, hsplit, hpart, rfl⟩ :=
    parseDevicePath_block h hblock
  refine ⟨device ++ ':' :: (printedPart part ++ fullName dir name), _, ?_,
    parseDevicePath_printed hdevice htype hsplit hpart fuel, rfl, rfl, rfl, rfl⟩
  simp [pathDescriptionToString, PathDescription.directory, printedPart, fullName]

/-- Every device is a block device. -/
def blockFirmware : Firmware := ⟨fun _ => .block, fun _ mac => mac, none, none⟩

/-- `hd:9,\\suse\\yaboot` -/
def suseBoot : CStr :=
  ['h', 'd', ':', '9', ',', '\\', 's', 'u', 's', 'e', '\\', 'y', 'a', 'b', 'o', 'o', 't']

/-- What `suseBoot` is parsed into. -/
def suseDescription : PathDescription :=
  { PathDescription.zero with
    part := 9, type := .block, device := some ['h', 'd']
    s2 := some ['\\', 's', 'u', 's', 'e', '\\'], filename := some ['y', 'a', 'b', 'o', 'o', 't'] }

theorem suseDescription_reads_back : ReadsBack blockFirmware 0 suseDescription :=
  block_reads_back blockFirmware 0 suseBoot suseDescription (by decide +kernel) rfl

/-! ## §4 An image on the boot disk -/

/-- What a path without a device stands for on the default device: it starts at a delimiter, or
in the default directory. -/
def imageOnDisk (default : PathDescription) (imagepath : CStr) : CStr :=
  if imagepath.head? = some '/' ∨ imagepath.head? = some '\\' then imagepath
  else default.directory.getD [] ++ imagepath

/-- The text that is parsed has the default device and number in front of the image. -/
theorem defaultPathname_block {default : PathDescription} (htype : default.type = .block)
    (imagepath : CStr) :
    defaultPathname default none imagepath
      = some (default.device.getD [] ++ ':' :: (printedPart default.part
          ++ imageOnDisk default imagepath)) := by
  have hdir : (if imagepath.head? ≠ some '/' ∧ imagepath.head? ≠ some '\\'
      then default.directory.getD [] else []) ++ imagepath = imageOnDisk default imagepath := by
    by_cases hstart : imagepath.head? = some '/' ∨ imagepath.head? = some '\\'
    · rw [imageOnDisk, if_pos hstart, if_neg (by rw [← not_or, not_not]; exact hstart)]
      rfl
    · rw [imageOnDisk, if_neg hstart, if_pos (not_or.mp hstart)]
  have hprint : (if 0 < default.part then decimalInt default.part else []) ++ [',']
      = printedPart default.part := by
    unfold printedPart
    split <;> rfl
  simp only [defaultPathname, htype]
  rw [← hdir, ← hprint]
  simp

/-- The number that is found again; without one it is -1. -/
def partOrNone (part : Int) : Int := if 0 < part then part else -1

/-- The run for an image without a device of its own. -/
theorem relative_block_run {fw : Firmware} (fuel : Nat) {imagepath device name : CStr}
    {default : PathDescription} {dir : Option CStr} (result : PathDescription)
    (htype : default.type = .block) (hpart : default.part < 2 ^ 31)
    (hdevice : default.device = some device) (hcolon : ':' ∉ device)
    (hblock : fw.devtype device = .block) (himage : ':' ∉ imagepath) (hsplit : Split dir name)
    (hfull : imageOnDisk default imagepath = fullName dir name) :
    imagepathToPathDescription fw fuel false (some imagepath) result default
      = some (true, { PathDescription.zero with
          part := partOrNone default.part, type := .block, device := some device, s2 := dir
          filename := some name }, default) := by
  have hprint : printedPart default.part = printedPart (partOrNone default.part) := by
    unfold printedPart partOrNone
    by_cases hpos : 0 < default.part <;> simp [hpos]
  have hrange : partOrNone default.part = -1
      ∨ 0 < partOrNone default.part ∧ partOrNone default.part < 2 ^ 31 := by
    unfold partOrNone
    split
    · exact .inr ⟨‹_›, hpart⟩
    · exact .inl rfl
  have hpath : defaultPathname default none imagepath
      = some (device ++ ':' :: (printedPart (partOrNone default.part) ++ fullName dir name)) := by
    rw [defaultPathname_block htype, hdevice, hfull, hprint]
    rfl
  have hparse := parseDevicePath_printed hcolon hblock hsplit hrange fuel
  simp [imagepathToPathDescription, strchr_eq_none.mpr himage, htype, hpath, hparse]

/-- **A relative image on the boot disk**: next to a block device with a partition number, every
path without a colon is found on that device and partition, and its directory and file name are
the path itself or the path in the default directory. -/
theorem relative_image_found {fw : Firmware} (fuel : Nat) {imagepath device : CStr}
    {default : PathDescription} (result : PathDescription) (htype : default.type = .block)
    (hpart : 0 < default.part ∧ default.part < 2 ^ 31) (hdevice : default.device = some device)
    (hcolon : ':' ∉ device) (hblock : fw.devtype device = .block) (himage : ':' ∉ imagepath) :
    ∃ r name, imagepathToPathDescription fw fuel false (some imagepath) result default
        = some (true, r, default)
      ∧ r.type = .block ∧ r.device = some device ∧ r.part = default.part
      ∧ r.filename = some name
      ∧ fullName r.directory name = imageOnDisk default imagepath := by
  obtain ⟨dir, name, hsplit, hfull⟩ := exists_split (imageOnDisk default imagepath)
  exact ⟨_, name,
    relative_block_run fuel result htype hpart.2 hdevice hcolon hblock himage hsplit hfull,
    rfl, rfl, if_pos hpart.1, rfl, hfull.symm⟩

/-- `vmlinux` next to `suseBoot`. -/
theorem suse_image_found :
    ∃ r name, imagepathToPathDescription blockFirmware 0 false
        (some ['v', 'm', 'l', 'i', 'n', 'u', 'x']) .zero suseDescription
        = some (true, r, suseDescription)
      ∧ r.type = .block ∧ r.device = some ['h', 'd'] ∧ r.part = suseDescription.part
      ∧ r.filename = some name
      ∧ fullName r.directory name
        = imageOnDisk suseDescription ['v', 'm', 'l', 'i', 'n', 'u', 'x'] :=
  relative_image_found 0 .zero rfl (by decide) rfl (by decide) rfl (by decide)

end LiloBoot.DevPath
