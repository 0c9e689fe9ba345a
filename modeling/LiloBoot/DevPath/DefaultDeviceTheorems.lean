/-
LiloBoot.DevPath.DefaultDeviceTheorems — `device=` and `partition=`.

`set_default_device` replaces the device and the type of a description, and its
partition if one is given. The directory of a disk and the options of a server
are in one union and stay there, so a loader that came from the other kind of
device prepends or appends them to every image.
-/
import LiloBoot.DevPath.CasTheorems
import LiloBoot.DevPath.NetTheorems

namespace LiloBoot.DevPath

/-! ## §1 The new device -/

/-- The number in `partition=`, if it is one. -/
def givenNumber (partition : Option CStr) : Option Int :=
  match partition with
  | none => none
  | some partition =>
    let (n, endp) := simpleStrtol partition 10
    if endp.length ≠ partition.length ∧ endp = [] then some n else none

/-- `set_default_device`. -/
def setDefaultDevice (fw : Firmware) (dev partition : Option CStr) (default : PathDescription) :
    PathDescription :=
  let default :=
    match dev with
    | none => default
    | some dev =>
      let device := dev.takeWhile (· ≠ ':')
      { default with device := some device, type := fw.devtype device }
  match givenNumber partition with
  | none => default
  | some n => { default with type := if default.type = .unset then .block else default.type, part := n }

/-- The code and the description for an image, next to a default device. -/
def imageResult (fw : Firmware) (fuel : Nat) (imagepath : CStr) (default : PathDescription) :
    Option (Bool × PathDescription) :=
  (imagepathToPathDescription fw fuel false (some imagepath) .zero default).map fun answer =>
    (answer.1, answer.2.1)

/-- With enough fuel every image is found where it is next to a device that was never another
one. -/
def NothingLeft (fw : Firmware) (dev : CStr) (partition : Option CStr) (d : PathDescription) :
    Prop :=
  ∀ imagepath, ':' ∉ imagepath → ∃ enough, ∀ fuel, enough ≤ fuel →
    imageResult fw fuel imagepath (setDefaultDevice fw (some dev) partition d)
      = imageResult fw fuel imagepath (setDefaultDevice fw (some dev) partition .zero)

/-- What a server would get in front of an image. -/
def inFront (d : PathDescription) : CStr :=
  d.s1.getD [] ++ (if d.flags &&& flagIpv6 ≠ 0 then [] else [','])

/-- There is no directory or number that a disk would use; for a server nothing stands behind an
image, and in front of it only a comma. A `bootp-response` has the server's address, and what
stands before that comma is not used. -/
def NothingToLeave (fw : Firmware) (d : PathDescription) (partition : Option CStr) :
    DeviceType → Prop
  | .block => d.directory.getD [] = [] ∧ (givenNumber partition = none → d.part ≤ 0)
  | .net => d.netAfter = none ∧ ∃ t, inFront d = t ++ [','] ∧ ',' ∉ t ∧ ¬ IsOption t
      ∧ (fw.bootpResponse = none → t = [])
  | _ => True

/-- What is replaced and what stays. -/
theorem setDefaultDevice_eq {fw : Firmware} {dev : CStr} {type : DeviceType}
    (htype : fw.devtype (dev.takeWhile (· ≠ ':')) = type) (hset : type ≠ .unset)
    (partition : Option CStr) (d : PathDescription) :
    setDefaultDevice fw (some dev) partition d
      = { d with
          device := some (dev.takeWhile (· ≠ ':')), type := type
          part := (givenNumber partition).getD d.part } := by
  simp only [setDefaultDevice, htype]
  cases givenNumber partition with
  | none => rfl
  | some n => simp [hset]

theorem givenNumber_range {partition : Option CStr} {n : Int}
    (h : givenNumber partition = some n) : n < 2 ^ 31 := by
  cases partition with
  | none => cases h
  | some partition =>
    simp only [givenNumber] at h
    split at h
    · cases h
      exact (simpleStrtol_range partition 10).2
    · cases h

theorem device_no_colon (dev : CStr) : ':' ∉ dev.takeWhile (· ≠ ':') := by
  intro hin
  simpa using List.mem_takeWhile_imp hin

/-! ## §2 A disk -/

section Disk

variable {fw : Firmware} {device img : CStr} {d : PathDescription}

/-- What is printed for an image, and no more, decides what is found. -/
theorem imageResult_block (fuel : Nat) (htype : d.type = .block) (hdevice : d.device = some device)
    (hcolon : ':' ∉ img) :
    imageResult fw fuel img d = parseDevicePath fw fuel
      (some (device ++ ':' :: (printedPart d.part ++ imageOnDisk d img))) .zero := by
  have hpath := defaultPathname_block htype img
  rw [hdevice] at hpath
  simp [imageResult, imagepathToPathDescription, strchr_eq_none.mpr hcolon, htype, hpath,
    Option.map_map, Function.comp_def]

theorem imageResult_block_name (htype : d.type = .block) (hdevice : d.device = some device)
    (hno : ':' ∉ device) (hblock : fw.devtype device = .block) (hpart : d.part < 2 ^ 31)
    (hcolon : ':' ∉ img) (fuel : Nat) : ∃ r name, imageResult fw fuel img d = some (true, r)
      ∧ r.part = partOrNone d.part ∧ r.filename = some name
      ∧ fullName r.s2 name = imageOnDisk d img := by
  obtain ⟨dir, name, hsplit, hfull⟩ := exists_split (imageOnDisk d img)
  have hrun := relative_block_run fuel .zero htype hpart hdevice hno hblock hcolon hsplit hfull
  exact ⟨_, name, by rw [imageResult, hrun]; rfl, rfl, rfl, hfull.symm⟩

theorem printedPart_none {part : Int} (h : part ≤ 0) : printedPart part = [','] :=
  if_neg (Int.not_lt.mpr h)

theorem partOrNone_zero {part : Int} (h : partOrNone part = -1) : part ≤ 0 := by
  unfold partOrNone at h
  split at h
  · omega
  · omega

theorem imageOnDisk_nil {default : PathDescription} (h : default.directory.getD [] = [])
    (img : CStr) : imageOnDisk default img = img := by
  rw [imageOnDisk, h, List.nil_append, ite_self]

/-- A disk gets nothing from the old device exactly if there is no directory or options in its
place, and no number where none is given. -/
theorem nothingLeft_block_iff {dev : CStr} (partition : Option CStr)
    (hblock : fw.devtype (dev.takeWhile (· ≠ ':')) = .block) (hnumber : d.part < 2 ^ 31) :
    NothingLeft fw dev partition d ↔ NothingToLeave fw d partition .block := by
  have hno := device_no_colon dev
  have hnew := setDefaultDevice_eq hblock (by decide) partition
  have hrange : ∀ part : Int, part < 2 ^ 31 → (givenNumber partition).getD part < 2 ^ 31 := by
    intro part hpart
    cases hn : givenNumber partition with
    | none => exact hpart
    | some n => exact givenNumber_range hn
  unfold NothingLeft
  constructor
  · intro h
    -- the file `a`, in the directory that is there
    obtain ⟨fuel, h⟩ := h ['a'] (by decide)
    obtain ⟨r, name, hrun, hpart, hname, hfull⟩ := imageResult_block_name
      (congrArg PathDescription.type (hnew d)) (congrArg PathDescription.device (hnew d)) hno hblock
      (by rw [hnew d]; exact hrange _ hnumber) (show ':' ∉ ['a'] by decide) fuel
    obtain ⟨r', name', hrun', hpart', hname', hfull'⟩ := imageResult_block_name
      (congrArg PathDescription.type (hnew .zero)) (congrArg PathDescription.device (hnew .zero)) hno
      hblock (by rw [hnew .zero]; exact hrange _ (by decide)) (show ':' ∉ ['a'] by decide) fuel
    obtain rfl : r = r' := by
      have hpair := hrun.symm.trans ((h fuel le_rfl).trans hrun')
      cases hpair
      rfl
    obtain rfl : name = name' := Option.some.inj (hname.symm.trans hname')
    rw [hnew] at hpart hpart' hfull hfull'
    constructor
    · have hdir : d.directory.getD [] ++ ['a'] = ['a'] := hfull.symm.trans hfull'
      exact List.append_left_eq_self.mp hdir
    · intro hnone
      rw [hnone] at hpart hpart'
      exact partOrNone_zero (hpart.symm.trans hpart')
  · rintro ⟨hdir, hpart⟩ img hcolon
    refine ⟨0, fun fuel _ => ?_⟩
    rw [hnew d, hnew .zero, imageResult_block fuel rfl rfl hcolon,
      imageResult_block fuel rfl rfl hcolon, imageOnDisk_nil (by exact hdir), imageOnDisk_nil rfl]
    have hprint : printedPart ((givenNumber partition).getD d.part)
        = printedPart ((givenNumber partition).getD PathDescription.zero.part) := by
      cases hn : givenNumber partition with
      | none => exact (printedPart_none (hpart hn)).trans (printedPart_none (by decide)).symm
      | some n => rfl
    simp only [hprint]

end Disk

/-! ## §3 A server -/

section Server

variable {fw : Firmware} {device img s : CStr} {d : PathDescription}

/-- What is printed for an image, and no more, decides what is found. -/
theorem imageResult_net (fuel : Nat) (htype : d.type = .net) (hdevice : d.device = some device)
    (hno : ':' ∉ device) (hnet : fw.devtype device = .net) (hcolon : ':' ∉ img) :
    imageResult fw fuel img d
      = (parseNetDevice fw fuel (netStart device (fw.mac device PathDescription.zero.mac))
          (relativeOptions d.flags d.s1 d.s2 img)).map fun r => (true, r) := by
  rw [imageResult, relative_net_run hdevice hno hnet htype hcolon, Option.map_map]
  rfl

theorem getTftpIpv4Options_flags (fw : Firmware) (path : PathDescription) (options : CStr)
    (offset : Nat) : (getTftpIpv4Options fw path options offset).flags = path.flags := by
  obtain ⟨s1, s2, filename, h⟩ := getTftpIpv4Options_frame fw path options offset
  rw [h]

/-- The IPv6 flag stays. -/
theorem getTftpIpv6Options_flags {fuel : Nat} {path r : PathDescription} {offset : Nat}
    (h : getTftpIpv6Options fuel path s offset = some r) (hv6 : path.flags &&& flagIpv6 ≠ 0) :
    r.flags &&& flagIpv6 ≠ 0 := by
  simp only [getTftpIpv6Options, Option.bind_eq_bind] at h
  obtain ⟨⟨flags, len⟩, hopts, h⟩ := Option.bind_eq_some_iff.mp h
  obtain ⟨c, t, n, -, hscan, -⟩ := parseOptions_scan hopts
  have hkept : flags &&& flagIpv6 ≠ 0 := hscan.flags_kept hv6
  simp only at h
  split at h
  · cases h
    exact hkept
  · split at h
    · cases h
      exact hkept
    · cases h
      exact hkept

/-- Where the parser sets no flags, it has gone over some options and read the rest as for IPv4. -/
theorem parseNetDevice_unflagged {fuel : Nat} {mac : List UInt8} {r : PathDescription}
    (h : parseNetDevice fw fuel (netStart device mac) s = some r) (hnet : r.type = .net)
    (hflags : r.flags = 0) : ∃ c t, s = c ++ t ∧ ScanAll c t 0 0
      ∧ r = getTftpIpv4Options fw (netStart device mac) s c.length := by
  simp only [parseNetDevice, Option.bind_eq_bind] at h
  obtain ⟨⟨flags, offset⟩, hscan, h⟩ := Option.bind_eq_some_iff.mp h
  obtain ⟨c, t, rfl, hall, rfl⟩ := scanOptions_scan hscan
  have hzero : ScanAll c t 0 flags := hall
  simp only at h
  split at h
  · -- an iSCSI path is none of a network device
    cases h
    simp only [getIscsiOptions] at hnet
    split at hnet
    · cases hnet
    · cases hnet
  rw [getTftpOptions] at h
  split at h
  · rename_i hv6
    refine absurd (getTftpIpv6Options_flags h hv6) ?_
    rw [hflags]
    decide
  · cases h
    rw [getTftpIpv4Options_flags] at hflags
    obtain rfl : flags = 0 := hflags
    exact ⟨c, t, rfl, hzero, rfl⟩

/-- A text that is no option, and a comma: nothing is gone over. -/
theorem parseNetDevice_front {fuel : Nat} {t p : CStr} (htext : ',' ∉ t) (hoption : ¬ IsOption t)
    (hfuel : (t ++ ',' :: p).length < fuel) (mac : List UInt8) :
    parseNetDevice fw fuel (netStart device mac) (t ++ ',' :: p)
      = some (getTftpIpv4Options fw (netStart device mac) (t ++ ',' :: p) 0) := by
  have hscan : scanOptions fuel (t ++ ',' :: p) 0 = some (0, 0) :=
    scanOptions_of_scan (scanAll_of_not_isOption htext hoption) hfuel
  have hflags : (netStart device mac).flags = 0 := rfl
  simp only [parseNetDevice, hflags, Option.bind_eq_bind, hscan, Option.bind_some]
  rw [if_neg (by decide), getTftpOptions, if_neg (by simp)]
  rfl

theorem parseNetDevice_fresh {fuel : Nat} {p : CStr} (hfuel : p.length + 1 < fuel)
    (mac : List UInt8) : parseNetDevice fw fuel (netStart device mac) (',' :: p)
      = some (getTftpIpv4Options fw (netStart device mac) (',' :: p) 0) :=
  parseNetDevice_front List.not_mem_nil not_isOption_nil hfuel mac

/-! ### Without a `bootp-response` -/

/-- The result of an image alone is that of no other options. -/
theorem options_of_fresh (hboot : fw.bootpResponse = none) {fuel : Nat} {mac : List UInt8}
    (hcomma : ',' ∉ img)
    (h : parseNetDevice fw fuel (netStart device mac) s
      = some (getTftpIpv4Options fw (netStart device mac) (',' :: img) 0)) : s = ',' :: img := by
  obtain ⟨c, t, rfl, -, heq⟩ := parseNetDevice_unflagged h (getTftpIpv4Options_type ..)
    (getTftpIpv4Options_flags ..)
  have hfresh := getTftpIpv4Options_file hboot (netStart device mac) (c := []) (t := []) (p := img)
    List.not_mem_nil
  rw [splitComma_none hcomma] at hfresh
  have hrun := hfresh.symm.trans heq
  by_cases hempty : t = []
  · subst hempty
    simp only [List.append_nil, getTftpIpv4Options_bare] at hrun
    cases congrArg PathDescription.filename hrun
  by_cases hin : ',' ∈ t
  · obtain ⟨b, p, rfl, hb⟩ := List.eq_append_cons_of_mem hin
    rw [getTftpIpv4Options_file hboot _ hb] at hrun
    have hname : img = (splitComma p).1 := Option.some.inj (congrArg PathDescription.filename hrun)
    have hbefore : [] = c ++ b := Option.some.inj (congrArg PathDescription.s1 hrun)
    have hafter : (splitComma p).2 = none := by
      have hs2 := congrArg PathDescription.s2 hrun
      cases hsplit : (splitComma p).2 with
      | none => rfl
      | some after =>
        rw [hsplit] at hs2
        cases hs2
    obtain ⟨rfl, rfl⟩ := List.append_eq_nil_iff.mp hbefore.symm
    have hp : p = withAfter (splitComma p).1 (splitComma p).2 := withAfter_of_split rfl
    rw [hp, ← hname, hafter]
    simp [withAfter]
  · rw [getTftpIpv4Options_server hboot _ hempty hin] at hrun
    cases congrArg PathDescription.filename hrun

/-! ### With one -/

theorem getTftpIpv4Options_cas {size : Nat} {dp : Bytes}
    (hboot : fw.bootpResponse = some (size, dp)) (path : PathDescription) {offset : Nat}
    (hs : s.drop offset ≠ []) :
    getTftpIpv4Options fw path s offset = { path with
      filename := ((s.drop offset).splitOn ',')[1]?.or path.filename
      s1 := some (s.take offset ++ ipv4ToAscii (packetWord dp 20))
      s2 := some (casNetAfter dp (casValues (s.drop offset) size dp)) } := by
  simp only [getTftpIpv4Options, if_neg hs, getTftpIpv4IbmCAS_eq hboot]

theorem getTftpIpv4Options_fields {size : Nat} {dp : Bytes}
    (hboot : fw.bootpResponse = some (size, dp)) (path : PathDescription) (offset : Nat)
    (hs : s.drop offset ≠ []) :
    (getTftpIpv4Options fw path s offset).filename
        = ((s.drop offset).splitOn ',')[1]?.or path.filename
      ∧ (getTftpIpv4Options fw path s offset).s1
        = some (s.take offset ++ ipv4ToAscii (packetWord dp 20))
      ∧ (getTftpIpv4Options fw path s offset).s2
        = some (casNetAfter dp (casValues (s.drop offset) size dp)) := by
  rw [getTftpIpv4Options_cas hboot path hs]
  exact ⟨rfl, rfl, rfl⟩

/-- The server's text is not used. -/
theorem takenOf_server (server server' : CStr) (texts : List CStr) :
    takenOf (server :: texts) = takenOf (server' :: texts) := by
  rcases texts with _ | ⟨name, _ | ⟨client, _ | ⟨gateway, _ | ⟨bootp, _ | ⟨tftp, more⟩⟩⟩⟩⟩
  iterate 6 rfl

theorem getTftpIpv4Options_front {size : Nat} {dp : Bytes}
    (hboot : fw.bootpResponse = some (size, dp)) (path : PathDescription) {t : CStr} (p : CStr)
    (htext : ',' ∉ t) :
    getTftpIpv4Options fw path (t ++ ',' :: p) 0 = getTftpIpv4Options fw path (',' :: p) 0 := by
  have htexts := List.splitOn_append_cons_self_of_not_mem htext p
  have hfresh := List.splitOn_append_cons_self_of_not_mem (List.not_mem_nil (a := ',')) p
  rw [List.nil_append] at hfresh
  rw [getTftpIpv4Options_cas hboot path (by simp), getTftpIpv4Options_cas hboot path (by simp)]
  simp only [List.drop_zero, List.take_zero, casValues_taken, htexts, hfresh,
    takenOf_server t [] (p.splitOn ','), List.getElem?_cons_succ]

/-- The retry count is in what is printed behind the file name. -/
theorem casNetAfter_retry (dp : Bytes) (gateway netmask : Nat) :
    casNetAfter dp ⟨gateway, 7, 5, netmask⟩ ≠ casNetAfter dp ⟨gateway, 8, 5, netmask⟩ := by
  have hseven : decimalInt 7 = ['7'] := by decide
  have height : decimalInt 8 = ['8'] := by decide
  simp only [casNetAfter, List.append_assoc, hseven, height]
  intro h
  have hrest := List.append_cancel_left h
  simp only [List.cons_append, List.cons.injEq, true_and] at hrest
  have hretry := List.append_cancel_left hrest
  simp at hretry

/-- With a client address nothing but the file name depends on the file name. -/
theorem takenOf_behind (server name name' client : CStr) (more : List CStr) :
    takenOf (server :: name :: client :: more)
      = { takenOf (server :: name' :: client :: more) with name := some name } := by
  rcases more with _ | ⟨gateway, _ | ⟨bootp, _ | ⟨tftp, more⟩⟩⟩
  iterate 4 rfl

theorem casValues_name (size : Nat) (dp : Bytes) {t name name' more : CStr} (htext : ',' ∉ t)
    (hname : ',' ∉ name) (hname' : ',' ∉ name') :
    casValues (t ++ ',' :: (name ++ ',' :: more)) size dp
      = casValues (t ++ ',' :: (name' ++ ',' :: more)) size dp := by
  obtain ⟨client, rest, hmore⟩ := List.exists_cons_of_ne_nil (List.splitOn_ne_nil ',' more)
  simp only [casValues_taken, List.splitOn_append_cons_self_of_not_mem htext,
    List.splitOn_append_cons_self_of_not_mem hname,
    List.splitOn_append_cons_self_of_not_mem hname', hmore, takenOf_behind t name name' client rest]

theorem casValues_number {n : Int} (hcomma : ',' ∉ img) (hn : (retryCount img).1 = n) (size : Nat)
    (dp : Bytes) : casValues (',' :: img) size dp
      = ⟨(routerOf dp size).getD 0, n, 5, (getDhcpIpv4Options dp size 0).1⟩ := by
  have htexts : (',' :: img).splitOn ',' = [[], img] := by
    have hfirst := List.splitOn_append_cons_self_of_not_mem (List.not_mem_nil (a := ',')) img
    rw [List.nil_append, List.splitOn_eq_singleton hcomma] at hfirst
    exact hfirst
  rw [casValues_taken, htexts, ← hn]
  rfl

/-- Only behind a single comma the second text is the image, whatever the image is. -/
theorem front_of_names {front : CStr} {after : Option CStr}
    (h : ∀ img, img = ['7'] ∨ img = ['8'] →
      ((front ++ withAfter img after).splitOn ',')[1]? = some img) :
    ∃ t, front = t ++ [','] ∧ ',' ∉ t := by
  have hdiff : ∀ x, ¬ ∀ img : CStr, img = ['7'] ∨ img = ['8'] → x = some img := fun x hx =>
    absurd ((hx ['7'] (.inl rfl)).symm.trans (hx ['8'] (.inr rfl))) (by decide)
  have hno : ∀ img : CStr, img = ['7'] ∨ img = ['8'] → ',' ∉ img := by
    rintro img (rfl | rfl) <;> decide
  -- the text in front of an image, up to the comma behind it
  have hfirst : ∀ b : CStr, ',' ∉ b → ∀ img, img = ['7'] ∨ img = ['8'] →
      (b ++ withAfter img after).splitOn ',' = (b ++ img) :: (after.map (·.splitOn ',')).getD [] := by
    intro b hb img himg
    have hnone : ',' ∉ b ++ img := by simp [hb, hno img himg]
    cases after with
    | none => simpa [withAfter] using List.splitOn_eq_singleton hnone
    | some after =>
      have hsplit := List.splitOn_append_cons_self_of_not_mem hnone after
      simpa [withAfter] using hsplit
  by_cases hin : ',' ∈ front
  · obtain ⟨t, b, rfl, ht⟩ := List.eq_append_cons_of_mem hin
    have hsecond : ∀ img, img = ['7'] ∨ img = ['8'] →
        ((b ++ withAfter img after).splitOn ',')[0]? = some img := by
      intro img himg
      have hname := h img himg
      rwa [List.append_assoc, List.cons_append, List.splitOn_append_cons_self_of_not_mem ht,
        List.getElem?_cons_succ] at hname
    by_cases hb : ',' ∈ b
    · obtain ⟨b, rest, rfl, hfree⟩ := List.eq_append_cons_of_mem hb
      refine absurd (fun img himg => ?_) (hdiff (some b))
      have hname := hsecond img himg
      rwa [List.append_assoc, List.cons_append, List.splitOn_append_cons_self_of_not_mem hfree,
        List.getElem?_cons_zero] at hname
    · have hname := hsecond ['7'] (.inl rfl)
      rw [hfirst b hb _ (.inl rfl), List.getElem?_cons_zero, Option.some.injEq] at hname
      obtain rfl := List.append_left_eq_self.mp hname
      exact ⟨t, rfl, ht⟩
  · refine absurd (fun img himg => ?_) (hdiff ((after.map (·.splitOn ',')).getD [])[0]?)
    have hname := h img himg
    rwa [hfirst front hin img himg, List.getElem?_cons_succ] at hname

/-- What the result of an image alone says about the other options. -/
theorem options_of_fresh_cas {size : Nat} {dp : Bytes}
    (hboot : fw.bootpResponse = some (size, dp)) {fuel : Nat} {mac : List UInt8}
    (hcomma : ',' ∉ img) (hs : s ≠ [])
    (h : parseNetDevice fw fuel (netStart device mac) s
      = some (getTftpIpv4Options fw (netStart device mac) (',' :: img) 0)) :
    ScanAll [] s 0 0 ∧ (s.splitOn ',')[1]? = some img
      ∧ casNetAfter dp (casValues s size dp) = casNetAfter dp (casValues (',' :: img) size dp) := by
  obtain ⟨c, t, rfl, hscan, heq⟩ := parseNetDevice_unflagged h (getTftpIpv4Options_type ..)
    (getTftpIpv4Options_flags ..)
  have hrest : ',' :: img ≠ [] := by simp
  have hfresh := getTftpIpv4Options_fields hboot (netStart device mac) 0 hrest
  have hname : ((',' :: img).splitOn ',')[1]? = some img := by
    have hfirst := List.splitOn_append_cons_self_of_not_mem (List.not_mem_nil (a := ',')) img
    rw [List.nil_append, List.splitOn_eq_singleton hcomma] at hfirst
    rw [hfirst]
    rfl
  by_cases hempty : t = []
  · subst hempty
    have hfile := hfresh.1
    rw [List.drop_zero, hname, heq, List.append_nil, getTftpIpv4Options_bare] at hfile
    cases hfile
  have hold := getTftpIpv4Options_fields hboot (netStart device mac) (s := c ++ t) c.length
    (by rwa [List.drop_left])
  rw [← heq, List.drop_left, List.take_left] at hold
  obtain ⟨hfile, hbefore, hvalues⟩ := hold
  obtain ⟨hfile', hbefore', hvalues'⟩ := hfresh
  rw [List.drop_zero, hname, hfile] at hfile'
  rw [List.take_zero, List.nil_append, hbefore] at hbefore'
  rw [List.drop_zero, hvalues] at hvalues'
  obtain rfl : c = [] := List.append_left_eq_self.mp (Option.some.inj hbefore')
  rw [List.nil_append]
  exact ⟨hscan, (Option.or_none ..).symm.trans hfile', Option.some.inj hvalues'⟩

/-! ### Both -/

theorem relativeOptions_front (d : PathDescription) (img : CStr) :
    relativeOptions d.flags d.s1 d.s2 img = inFront d ++ withAfter img d.s2 := by
  rw [relativeOptions, inFront, List.append_assoc]

/-- For the images `7` and `8` the other options give what none give. -/
theorem nothing_of_fresh (device : CStr) (mac : List UInt8)
    (h : ∀ img, img = ['7'] ∨ img = ['8'] → ∃ fuel,
      parseNetDevice fw fuel (netStart device mac) (inFront d ++ withAfter img d.s2)
        = some (getTftpIpv4Options fw (netStart device mac) (',' :: img) 0)) (partition : Option CStr) :
    NothingToLeave fw d partition .net := by
  obtain ⟨fuel, hseven⟩ := h ['7'] (.inl rfl)
  obtain ⟨fuel', height⟩ := h ['8'] (.inr rfl)
  cases hboot : fw.bootpResponse with
  | none =>
    have hoptions := options_of_fresh hboot (by decide) hseven
    cases hafter : d.s2 with
    | none =>
      rw [hafter] at hoptions
      have hfront : inFront d = [','] := List.append_cancel_right
        (show inFront d ++ ['7'] = [','] ++ ['7'] from hoptions)
      exact ⟨hafter, [], hfront, List.not_mem_nil, not_isOption_nil, fun _ => rfl⟩
    | some after =>
      rw [hafter] at hoptions
      have hlen := congrArg List.length hoptions
      simp only [withAfter, Option.map_some, Option.getD_some, List.length_append,
        List.length_cons, List.length_nil] at hlen
      obtain hnil : inFront d = [] := List.eq_nil_of_length_eq_zero (by omega)
      rw [hnil] at hoptions
      cases hoptions
  | some response =>
    obtain ⟨size, dp⟩ := response
    have hrun : ∀ img, img = ['7'] ∨ img = ['8'] →
        ScanAll [] (inFront d ++ withAfter img d.s2) 0 0
          ∧ ((inFront d ++ withAfter img d.s2).splitOn ',')[1]? = some img
          ∧ casNetAfter dp (casValues (inFront d ++ withAfter img d.s2) size dp)
            = casNetAfter dp (casValues (',' :: img) size dp) := by
      intro img himg
      obtain ⟨fuel, hfresh⟩ := h img himg
      have hcomma : ',' ∉ img := by rcases himg with rfl | rfl <;> decide
      have hne : img ≠ [] := by rcases himg with rfl | rfl <;> decide
      exact options_of_fresh_cas hboot hcomma (by simp [withAfter, hne]) hfresh
    obtain ⟨t, hfront, htext⟩ := front_of_names fun img himg => (hrun img himg).2.1
    rw [hfront] at hrun
    have hoption : ¬ IsOption t := by
      have hscan := (hrun ['7'] (.inl rfl)).1
      rw [List.append_assoc] at hscan
      exact not_isOption_of_scanAll htext hscan
    refine ⟨?_, t, hfront, htext, hoption, fun hnone => ?_⟩
    · show d.s2 = none
      cases hafter : d.s2 with
      | none => rfl
      | some after =>
        have hvalues : ∀ img, img = ['7'] ∨ img = ['8'] →
            casNetAfter dp (casValues (t ++ ',' :: (img ++ ',' :: after)) size dp)
              = casNetAfter dp (casValues (',' :: img) size dp) := by
          intro img himg
          have hsame := (hrun img himg).2.2
          have hstring : t ++ [','] ++ withAfter img (some after)
              = t ++ ',' :: (img ++ ',' :: after) := by simp [withAfter]
          rwa [hafter, hstring] at hsame
        have hseven := hvalues ['7'] (.inl rfl)
        rw [casValues_name size dp htext (show ',' ∉ ['7'] by decide) (show ',' ∉ ['8'] by decide),
          hvalues ['8'] (.inr rfl), casValues_number (n := 8) (by decide) (by decide),
          casValues_number (n := 7) (by decide) (by decide)] at hseven
        exact absurd hseven.symm (casNetAfter_retry dp _ _)
    · rw [hboot] at hnone
      cases hnone

/-- A server gets nothing from the old device exactly if there is nothing in the place of its
options that it would use. -/
theorem nothingLeft_net_iff {dev : CStr} (partition : Option CStr)
    (hnet : fw.devtype (dev.takeWhile (· ≠ ':')) = .net) :
    NothingLeft fw dev partition d ↔ NothingToLeave fw d partition .net := by
  have hno := device_no_colon dev
  have hnew := setDefaultDevice_eq hnet (by decide) partition
  unfold NothingLeft
  generalize dev.takeWhile (· ≠ ':') = device at hnet hno hnew
  have hold : ∀ fuel img, ':' ∉ img →
      imageResult fw fuel img (setDefaultDevice fw (some dev) partition d)
        = (parseNetDevice fw fuel (netStart device (fw.mac device PathDescription.zero.mac))
            (inFront d ++ withAfter img d.s2)).map fun r => (true, r) := by
    intro fuel img hcolon
    rw [hnew d, imageResult_net fuel rfl rfl hno hnet hcolon, ← relativeOptions_front]
  have hfresh : ∀ fuel img, ':' ∉ img →
      imageResult fw fuel img (setDefaultDevice fw (some dev) partition .zero)
        = (parseNetDevice fw fuel (netStart device (fw.mac device PathDescription.zero.mac))
            (',' :: img)).map fun r => (true, r) := by
    intro fuel img hcolon
    rw [hnew .zero, imageResult_net fuel rfl rfl hno hnet hcolon]
    simp [PathDescription.zero, relativeOptions, withAfter]
  have hinj : ∀ x y : Option PathDescription, x.map (fun r => (true, r)) = y.map (fun r => (true, r))
      ↔ x = y := fun x y => Option.map_inj_right (fun _ _ h => congrArg Prod.snd h)
  constructor
  · intro h
    refine nothing_of_fresh device (fw.mac device PathDescription.zero.mac)
      (fun img himg => ?_) partition
    have hcolon : ':' ∉ img := by rcases himg with rfl | rfl <;> decide
    obtain ⟨enough, hsame⟩ := h img hcolon
    refine ⟨enough + img.length + 2, ?_⟩
    have hrun := hsame (enough + img.length + 2) (by omega)
    rw [hold _ img hcolon, hfresh _ img hcolon, hinj] at hrun
    rw [hrun]
    exact parseNetDevice_fresh (by omega) _
  · rintro ⟨hafter, t, hfront, htext, hoption, hresponse⟩ img hcolon
    have hafter : d.s2 = none := hafter
    refine ⟨t.length + img.length + 2, fun fuel hfuel => ?_⟩
    rw [hold fuel img hcolon, hfresh fuel img hcolon, hinj, hafter, hfront]
    have hstring : t ++ [','] ++ withAfter img none = t ++ ',' :: img := by simp [withAfter]
    rw [hstring]
    cases hboot : fw.bootpResponse with
    | none => rw [hresponse hboot, List.nil_append]
    | some response =>
      rw [parseNetDevice_front htext hoption (by simp; omega), parseNetDevice_fresh (by omega),
        getTftpIpv4Options_front hboot _ img htext]

end Server

/-! ## §4 Every change -/

/-- **After a change of the device every image is found as if the old one had never been there
exactly if the old one leaves nothing that the new one uses**: to a disk no directory or server
options and no partition unless one is given; to a server nothing behind the image, and in front
of it no more than the comma. -/
theorem default_device_changed_iff (fw : Firmware) (dev : CStr) (partition : Option CStr)
    {d : PathDescription} (hnumber : d.part < 2 ^ 31) {type : DeviceType}
    (htype : fw.devtype (dev.takeWhile (· ≠ ':')) = type) (hkind : type = .block ∨ type = .net) :
    NothingLeft fw dev partition d ↔ NothingToLeave fw d partition type := by
  rcases hkind with rfl | rfl
  · exact nothingLeft_block_iff partition htype hnumber
  · exact nothingLeft_net_iff partition htype

/-- A firmware with a disk and a server. -/
def mixedFirmware : Firmware :=
  ⟨fun device => if device = ['n', 'e', 't'] then .net else .block, fun _ mac => mac, none, none⟩

/-- `hd:2,vmlinux`. -/
def hdDescription : PathDescription :=
  { PathDescription.zero with
    type := .block, device := some ['h', 'd'], part := 2, filename := some vmlinux }

theorem hd_leaves_nothing : NothingLeft mixedFirmware ['n', 'e', 't'] none hdDescription :=
  (default_device_changed_iff mixedFirmware ['n', 'e', 't'] none (by decide)
    (show _ = DeviceType.net by decide) (.inr rfl)).mpr
    ⟨rfl, [], rfl, List.not_mem_nil, not_isOption_nil, fun _ => rfl⟩

/-- The directory of `hd:2,\\boot\\yaboot`. -/
def bootDirectory : CStr := ['\\', 'b', 'o', 'o', 't', '\\']

/-- `device=net` after a boot from that directory: the server is asked for `vmlinux` with the
directory of the disk behind it. -/
theorem directory_left_behind :
    mixedFirmware.devtype ['n', 'e', 't'] = .net
      ∧ (imageResult mixedFirmware 8 vmlinux (setDefaultDevice mixedFirmware
          (some ['n', 'e', 't']) none { hdDescription with s2 := some bootDirectory })).map
          (fun answer => answer.2.netAfter) = some (some bootDirectory)
      ∧ (imageResult mixedFirmware 8 vmlinux (setDefaultDevice mixedFirmware
          (some ['n', 'e', 't']) none .zero)).map (fun answer => answer.2.netAfter) = some none
      ∧ ¬ NothingLeft mixedFirmware ['n', 'e', 't'] none
          { hdDescription with s2 := some bootDirectory } := by
  refine ⟨by decide, by decide, by decide, fun h => ?_⟩
  obtain ⟨hafter, -⟩ := (nothingLeft_net_iff none (by decide)).mp h
  cases hafter

end LiloBoot.DevPath
