/-
LiloBoot.Boot.ConfigFileName — the configuration file named after the network
address.

`get_mac_address` copies the address property of the boot device into an 8-byte
field. `find_and_load_config_file` finds the six bytes of the address in it,
without its length, and asks the server for `yaboot.conf-` and these bytes
before it asks for `yaboot.conf`.
-/
import LiloBoot.DevPath.NetTheorems

namespace LiloBoot.Boot

open DevPath

/-! ## §1 The property and the file names -/

/-- The properties of a node of the device tree. -/
abbrev Node := CStr → Option (List UInt8)

/-- `prom_getproplen`. -/
def promGetproplen (dev : Node) (name : CStr) : Int :=
  match dev name with
  | none => -1
  | some p => p.length

/-- `prom_getprop`: the length of the property, and memory from `mem` on with at most `len` bytes
of it. -/
def promGetprop (dev : Node) (name : CStr) (mem : List UInt8) (len : Int) : Int × List UInt8 :=
  match dev name with
  | none => (-1, mem)
  | some p => (p.length, p.take len.toNat ++ mem.drop (min len.toNat p.length))

def macAddress : CStr := "mac-address".toList

def localMacAddress : CStr := "local-mac-address".toList

/-- `get_mac_address`, without the message: memory from the field on. It is longer than the field
where something is stored behind it. -/
def getMacAddress (finddevice : CStr → Option Node) (device : CStr) (mac : List UInt8) :
    List UInt8 :=
  match finddevice device with
  | none => mac
  | some dev =>
    let (found, mac) := promGetprop dev macAddress mac (promGetproplen dev macAddress)
    if found < 0 then
      (promGetprop dev localMacAddress mac (promGetproplen dev localMacAddress)).2
    else mac

def hexDigits : List Char :=
  ['0', '1', '2', '3', '4', '5', '6', '7', '8', '9', 'a', 'b', 'c', 'd', 'e', 'f']

/-- `%02x`. -/
def hexByte (b : UInt8) : CStr :=
  [hexDigits.getD (b.toNat / 16) '0', hexDigits.getD (b.toNat % 16) '0']

/-- `config_file_name_ether_mac_template` with the bytes `m`. -/
def etherMacName (m : List UInt8) : CStr :=
  "yaboot.conf".toList ++ m.flatMap fun b => '-' :: hexByte b

/-- `config_file_name_ether_mac` as it is in the program. -/
def configFileNameEtherMac : CStr := "yaboot.conf-xx-xx-xx-xx-xx-xx".toList

/-- The names of `find_and_load_config_file`; `none` for a type it does not handle. -/
def configFileNames (b : PathDescription) : Option (List CStr) :=
  match b.type with
  | .net =>
    let m := if b.mac.getD 7 0 ≠ 0 then b.mac.drop 2 else b.mac
    let name :=
      if (m.take 6).any (· ≠ 0) then etherMacName (m.take 6) else configFileNameEtherMac
    some [name, "yaboot.conf".toList]
  | .iscsi | .block =>
    some ["yaboot.cnf".toList, "yaboot.conf".toList, "/etc/yaboot.conf".toList]
  | _ => none

/-- The loop over the names: those that were tried, and the path that could be opened; the second
is `none` where the parser does not end. -/
def tryNames (fw : Firmware) (fuel : Nat) (opens : PathDescription → Bool) (b : PathDescription) :
    List CStr → List CStr × Option (Option PathDescription)
  | [] => ([], some none)
  | name :: names =>
    match imagepathToPathDescription fw fuel false (some name) .zero b with
    | none => ([name], none)
    | some (parsed, config, _) =>
      if parsed && opens config then ([name], some (some config))
      else
        let (tried, found) := tryNames fw fuel opens b names
        (name :: tried, found)

/-- `find_and_load_config_file` up to the read. -/
def findConfigFile (fw : Firmware) (fuel : Nat) (opens : PathDescription → Bool)
    (b : PathDescription) : List CStr × Option (Option PathDescription) :=
  match configFileNames b with
  | none => ([], some none)
  | some names => tryNames fw fuel opens b names

/-! ## §2 What the address is -/

/-- The property that has the address of a device. -/
def macProperty (finddevice : CStr → Option Node) (device : CStr) : Option (List UInt8) :=
  (finddevice device).bind fun dev => (dev macAddress).or (dev localMacAddress)

/-- The last six bytes. -/
def lastSix (p : List UInt8) : List UInt8 := p.drop (p.length - 6)

/-- Nothing is stored behind the field, and of a property of six or eight bytes the last six are
in the first file name, unless they are all zero. -/
structure NamedAfterMac (fw : Firmware) (fuel : Nat) (opens : PathDescription → Bool)
    (property : Option (List UInt8)) (b : PathDescription) : Prop where
  inside : b.mac.length = 8
  name : ∀ p, property = some p → p.length = 6 ∨ p.length = 8 → (∃ x ∈ lastSix p, x ≠ 0) →
    (findConfigFile fw fuel opens b).1.head? = some (etherMacName (lastSix p))

/-- What the reader of the field can tell: the property fits, and if it has eight bytes, then the
last is not 0, or the address is where six bytes would have it. -/
def MacReadable (p : List UInt8) : Prop :=
  p.length ≤ 8 ∧ (p.length = 8 → (∃ x ∈ lastSix p, x ≠ 0) →
    p.getD 7 0 ≠ 0 ∨ ∃ x, p = [x, 0, x, 0, x, 0, x, 0])

/-! ## §3 The name -/

theorem hexDigits_inj : ∀ i < 16, ∀ j < 16, hexDigits.getD i '0' = hexDigits.getD j '0' → i = j := by
  decide

theorem hexByte_inj {b c : UInt8} (h : hexByte b = hexByte c) : b = c := by
  simp only [hexByte, List.cons.injEq, and_true] at h
  have hb := b.toNat_lt
  have hc := c.toNat_lt
  have hhigh := hexDigits_inj _ (by omega) _ (by omega) h.1
  have hlow := hexDigits_inj _ (by omega) _ (by omega) h.2
  exact UInt8.toNat_inj.mp (by omega)

/-- The name has every byte of the address. -/
theorem etherMacName_inj {m m' : List UInt8} (h : etherMacName m = etherMacName m') : m = m' := by
  have htail := List.append_cancel_left h
  clear h
  induction m generalizing m' with
  | nil =>
    cases m' with
    | nil => rfl
    | cons b m' => simp [hexByte] at htail
  | cons b m ih =>
    cases m' with
    | nil => simp [hexByte] at htail
    | cons c m' =>
      rw [List.flatMap_cons, List.flatMap_cons, List.cons_append, List.cons_append,
        List.cons.injEq] at htail
      obtain ⟨hbyte, hrest⟩ := List.append_inj htail.2 rfl
      rw [hexByte_inj hbyte, ih hrest]

/-- The name in the program is not that of an address: `x` is no digit. -/
theorem etherMacName_ne {m : List UInt8} (hm : m ≠ []) :
    etherMacName m ≠ configFileNameEtherMac := by
  obtain ⟨b, m, rfl⟩ := List.exists_cons_of_ne_nil hm
  have hdigit : ∀ i < 16, hexDigits.getD i '0' ≠ 'x' := by decide
  have hb := b.toNat_lt
  intro h
  have htail : (b :: m).flatMap (fun b => '-' :: hexByte b)
      = "-xx-xx-xx-xx-xx-xx".toList := List.append_cancel_left h
  simp only [List.flatMap_cons, hexByte, List.cons_append] at htail
  exact hdigit (b.toNat / 16) (by omega) (List.cons.inj (List.cons.inj htail).2).1

theorem tryNames_head (fw : Firmware) (fuel : Nat) (opens : PathDescription → Bool)
    (b : PathDescription) (names : List CStr) :
    (tryNames fw fuel opens b names).1.head? = names.head? := by
  cases names with
  | nil => rfl
  | cons name names =>
    unfold tryNames
    split
    · rfl
    · split <;> rfl

/-- The first name is tried whatever the server has. -/
theorem findConfigFile_head {b : PathDescription} {names : List CStr}
    (h : configFileNames b = some names) (fw : Firmware) (fuel : Nat)
    (opens : PathDescription → Bool) : (findConfigFile fw fuel opens b).1.head? = names.head? := by
  simp only [findConfigFile, h]
  exact tryNames_head fw fuel opens b names

/-! ## §4 The field -/

theorem promGetprop_none {dev : Node} {name : CStr} (h : dev name = none) (mem : List UInt8)
    (len : Int) : promGetprop dev name mem len = (-1, mem) := by
  simp [promGetprop, h]

theorem promGetprop_some {dev : Node} {name : CStr} {p : List UInt8} (h : dev name = some p)
    (mem : List UInt8) : promGetprop dev name mem (promGetproplen dev name)
      = ((p.length : Int), p ++ mem.drop p.length) := by
  simp [promGetprop, promGetproplen, h]

theorem getMacAddress_none {finddevice : CStr → Option Node} {device : CStr}
    (h : macProperty finddevice device = none) (mac : List UInt8) :
    getMacAddress finddevice device mac = mac := by
  unfold getMacAddress
  unfold macProperty at h
  cases hdev : finddevice device with
  | none => rfl
  | some dev =>
    rw [hdev, Option.bind_some, Option.or_eq_none_iff] at h
    simp [promGetprop_none h.1, promGetprop_none h.2]

/-- The field holds the property, and behind it what it held before. -/
theorem getMacAddress_some {finddevice : CStr → Option Node} {device : CStr} {p : List UInt8}
    (h : macProperty finddevice device = some p) (mac : List UInt8) :
    getMacAddress finddevice device mac = p ++ mac.drop p.length := by
  unfold getMacAddress
  unfold macProperty at h
  cases hdev : finddevice device with
  | none => simp [hdev] at h
  | some dev =>
    rw [hdev, Option.bind_some] at h
    cases hmac : dev macAddress with
    | some q =>
      rw [hmac, Option.some_or] at h
      cases h
      simp [promGetprop_some hmac]
    | none =>
      rw [hmac, Option.none_or] at h
      simp [promGetprop_none hmac, promGetprop_some h]

/-! ## §5 The guess -/

/-- The bytes that the reader of the field takes for the address. -/
def guessed (mac : List UInt8) : List UInt8 :=
  (if mac.getD 7 0 ≠ 0 then mac.drop 2 else mac).take 6

/-- The first name is that of an address exactly if this is the address that was guessed. -/
theorem first_name_iff {b : PathDescription} (hnet : b.type = .net) {m : List UInt8}
    (hm : ∃ x ∈ m, x ≠ 0) (fw : Firmware) (fuel : Nat) (opens : PathDescription → Bool) :
    (findConfigFile fw fuel opens b).1.head? = some (etherMacName m) ↔ guessed b.mac = m := by
  have hne : m ≠ [] := by
    obtain ⟨x, hx, -⟩ := hm
    exact List.ne_nil_of_mem hx
  have hnames : configFileNames b = some
      [if (guessed b.mac).any (· ≠ 0) then etherMacName (guessed b.mac) else configFileNameEtherMac,
        "yaboot.conf".toList] := by
    simp only [configFileNames, hnet, guessed]
    rfl
  rw [findConfigFile_head hnames, List.head?_cons, Option.some.injEq]
  constructor
  · intro h
    split at h
    · exact etherMacName_inj h
    · exact absurd h.symm (etherMacName_ne hne)
  · rintro rfl
    rw [if_pos (by simpa using hm)]

theorem exists_eight {p : List UInt8} (h : p.length = 8) :
    ∃ a b c d e f g i, p = [a, b, c, d, e, f, g, i] := by
  match p, h with
  | [a, b, c, d, e, f, g, i], _ => exact ⟨a, b, c, d, e, f, g, i, rfl⟩

theorem guessed_six {p : List UInt8} (h : p.length = 6) : guessed (p ++ [0, 0]) = lastSix p := by
  have hlast : (p ++ [0, 0]).getD 7 0 = 0 := by simp [List.getD, h]
  simp only [guessed, hlast, lastSix, h]
  simp [← h]

/-- Of eight bytes the last six are guessed if the last is not 0, or if the bytes repeat. -/
theorem guessed_eight {p : List UInt8} (h : p.length = 8) :
    guessed p = lastSix p ↔ p.getD 7 0 ≠ 0 ∨ ∃ x, p = [x, 0, x, 0, x, 0, x, 0] := by
  obtain ⟨a, b, c, d, e, f, g, i, rfl⟩ := exists_eight h
  by_cases hlast : i = 0
  · subst hlast
    simp only [guessed, lastSix, List.getD, List.length_cons, List.length_nil]
    simp
    constructor
    · rintro ⟨rfl, rfl, rfl, rfl, rfl, rfl⟩
      simp
    · rintro ⟨rfl, rfl, rfl, rfl, rfl, rfl⟩
      simp
  · simp [guessed, lastSix, List.getD, hlast]

/-! ## §6 Every device -/

/-- **The file is named after the address exactly if the property can be told from the field.** -/
theorem named_after_mac_iff {finddevice : CStr → Option Node} {fw : Firmware}
    (hmac : fw.mac = getMacAddress finddevice) {fuel : Nat} {bootpath : CStr} {b : PathDescription}
    (hparse : parseDevicePath fw fuel (some bootpath) .zero = some (true, b)) (hnet : b.type = .net)
    (opens : PathDescription → Bool) :
    NamedAfterMac fw fuel opens (macProperty finddevice (b.device.getD [])) b
      ↔ ∀ p, macProperty finddevice (b.device.getD []) = some p → MacReadable p := by
  obtain ⟨device, options, -, -, hrun⟩ := parseDevicePath_is_net hparse hnet
  obtain ⟨hdevice, hfield⟩ := parseNetDevice_frame hrun hnet
  have hdevice : b.device.getD [] = device := by rw [hdevice]; rfl
  have hfield : b.mac = getMacAddress finddevice device (List.replicate 8 0) := by
    rw [hfield, hmac]; rfl
  rw [hdevice]
  cases hproperty : macProperty finddevice device with
  | none =>
    rw [getMacAddress_none hproperty] at hfield
    refine ⟨fun _ p hp => (Option.some_ne_none p hp.symm).elim, fun _ => ⟨by rw [hfield]; rfl, ?_⟩⟩
    exact fun p hp => (Option.some_ne_none p hp.symm).elim
  | some p =>
    rw [getMacAddress_some hproperty] at hfield
    have hinside : b.mac.length = 8 ↔ p.length ≤ 8 := by
      rw [hfield, List.length_append, List.length_drop, List.length_replicate]
      omega
    have hsix : p.length = 6 → (∃ x ∈ lastSix p, x ≠ 0) →
        (findConfigFile fw fuel opens b).1.head? = some (etherMacName (lastSix p)) := by
      intro hlen hm
      rw [first_name_iff hnet hm, hfield, hlen]
      exact guessed_six hlen
    have height : p.length = 8 → (∃ x ∈ lastSix p, x ≠ 0) →
        ((findConfigFile fw fuel opens b).1.head? = some (etherMacName (lastSix p))
          ↔ p.getD 7 0 ≠ 0 ∨ ∃ x, p = [x, 0, x, 0, x, 0, x, 0]) := by
      intro hlen hm
      rw [first_name_iff hnet hm, hfield, hlen, List.drop_replicate, List.replicate_zero,
        List.append_nil]
      exact guessed_eight hlen
    constructor
    · rintro ⟨hlen, hname⟩ q hq
      cases hq
      exact ⟨hinside.mp hlen, fun hlen hm => (height hlen hm).mp (hname p rfl (.inr hlen) hm)⟩
    · intro h
      obtain ⟨hlen, hlast⟩ := h p rfl
      refine ⟨hinside.mpr hlen, fun q hq hlen hm => ?_⟩
      cases hq
      rcases hlen with hlen | hlen
      · exact hsix hlen hm
      · exact (height hlen hm).mpr (hlast hlen hm)

/-- A card whose firmware pads its address `02:00:00:00:00:01` in front. -/
def paddedMac : List UInt8 := [0, 0, 2, 0, 0, 0, 0, 1]

/-- A device tree with one card. -/
def oneCard (p : List UInt8) (device : CStr) : Option Node :=
  if device = ['n', 'e', 't'] then some fun name => if name = macAddress then some p else none
  else none

def cardFirmware (p : List UInt8) : Firmware :=
  ⟨fun _ => .net, getMacAddress (oneCard p), none, none⟩

/-- What is parsed from `net:`. -/
def cardDescription (p : List UInt8) : PathDescription :=
  { PathDescription.zero with
    type := .net, device := some ['n', 'e', 't'], s1 := some [], mac := p }

theorem paddedMac_parsed : parseDevicePath (cardFirmware paddedMac) 3
    (some ['n', 'e', 't', ':']) .zero = some (true, cardDescription paddedMac) := by decide

theorem paddedMac_named : NamedAfterMac (cardFirmware paddedMac) 3 (fun _ => false)
    (macProperty (oneCard paddedMac) ['n', 'e', 't']) (cardDescription paddedMac) :=
  (named_after_mac_iff (show (cardFirmware paddedMac).mac = _ from rfl) paddedMac_parsed rfl
    (fun _ => false)).mpr fun p hp => by
      obtain rfl : paddedMac = p := Option.some.inj hp
      exact ⟨by decide, fun _ _ => .inl (by decide)⟩

/-- An address that ends in 0, `02:00:00:00:01:00`. -/
def zeroMac : List UInt8 := [0, 0, 2, 0, 0, 0, 1, 0]

/-- Its file is `yaboot.conf-02-00-00-00-01-00`; the name that is tried is made of the first six
bytes. -/
theorem zeroMac_misnamed :
    parseDevicePath (cardFirmware zeroMac) 3 (some ['n', 'e', 't', ':']) .zero
        = some (true, cardDescription zeroMac)
      ∧ macProperty (oneCard zeroMac) ['n', 'e', 't'] = some zeroMac
      ∧ (findConfigFile (cardFirmware zeroMac) 3 (fun _ => false) (cardDescription zeroMac)).1.head?
        = some (etherMacName [0, 0, 2, 0, 0, 0])
      ∧ lastSix zeroMac = [2, 0, 0, 0, 1, 0]
      ∧ ¬ NamedAfterMac (cardFirmware zeroMac) 3 (fun _ => false) (some zeroMac)
          (cardDescription zeroMac) := by
  have hname : (findConfigFile (cardFirmware zeroMac) 3 (fun _ => false)
      (cardDescription zeroMac)).1.head? = some (etherMacName [0, 0, 2, 0, 0, 0]) :=
    (first_name_iff rfl ⟨2, by decide, by decide⟩ _ _ _).mpr (by decide)
  refine ⟨by decide, by decide, hname, by decide, fun h => ?_⟩
  have hbytes := etherMacName_inj (Option.some.inj
    (hname.symm.trans (h.name zeroMac rfl (.inr rfl) ⟨2, by decide, by decide⟩)))
  exact absurd hbytes (by decide)

end LiloBoot.Boot
