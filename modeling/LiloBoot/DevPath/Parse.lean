/-
LiloBoot.DevPath.Parse — firmware paths (`second/parse_device_path.c`).

A `path_description` is taken from a string, and printed as one. Pointers are
options, `none` the null pointer; the three structures of the union share
their two pointers, here `s1` and `s2`. What the firmware says about devices
and properties is a parameter. Every `malloc` succeeds. `strtol` is a macro for
`simple_strtol` here. The option scan can run for ever, so it has fuel, and so
have the functions that call it.
-/
import LiloBoot.Lib.SimpleStrtol

namespace LiloBoot.DevPath

/-! ## Descriptions -/

/-- `enum device_type`. -/
inductive DeviceType where
  | unset
  | unknown
  | invalid
  | block
  | net
  | iscsi
  deriving DecidableEq, Repr

/-- `struct path_description`. -/
structure PathDescription where
  part : Int
  type : DeviceType
  flags : Nat
  device : Option CStr
  s1 : Option CStr
  s2 : Option CStr
  mac : List UInt8
  filename : Option CStr
  deriving DecidableEq, Repr

/-- All zero, as `memset` leaves it. -/
def PathDescription.zero : PathDescription :=
  ⟨0, .unset, 0, none, none, none, List.replicate 8 0, none⟩

/-- `path_directory(x)`, in the union with `path_net_after(x)`. -/
def PathDescription.directory (d : PathDescription) : Option CStr := d.s2

/-- `path_net_before(x)`. -/
def PathDescription.netBefore (d : PathDescription) : Option CStr := d.s1

/-- `path_net_after(x)`. -/
def PathDescription.netAfter (d : PathDescription) : Option CStr := d.s2

/-- What the firmware answers: `prom_get_devtype`, what `get_mac_address` leaves in the field
for a device, and the properties of `/chosen`, of `bootp-response` also the size. -/
structure Firmware where
  devtype : CStr → DeviceType
  mac : CStr → List UInt8 → List UInt8
  nasBootdevice : Option CStr
  bootpResponse : Option (Nat × Bytes)

/-- `strchr(s, c)`: the string from the first `c` on. -/
def strchr (s : CStr) (c : Char) : Option CStr :=
  match s.dropWhile (· ≠ c) with
  | [] => none
  | t => some t

/-! ## Block devices -/

/-- `parse_block_device`. -/
def parseBlockDevice (result : PathDescription) (options : CStr) : PathDescription :=
  let part := (simpleStrtol options 10).1
  let part := if part ≤ 0 then -1 else part
  let pd :=
    match strchr options ',' with
    | some comma => comma.tail
    | none => options
  let pf :=
    match strrchr pd '/' with
    | some t => some t
    | none => strrchr pd '\\'
  match pf with
  | some t =>
    { result with
      part := part
      s2 := some (pd.take (pd.length - t.length + 1))
      filename := some t.tail }
  | none => { result with part := part, filename := some pd }

/-! ## Options -/

def flagMaybeEqualsign : Nat := 1
def flagNeedsEqualsign : Nat := 2
def flagCommand : Nat := 4
def flagQualifier : Nat := 8
def flagFilename : Nat := 16
def flagIscsi : Nat := 32
def flagIpv6 : Nat := 64

/-- `struct option`. -/
structure DevOption where
  name : CStr
  flag : Nat
  deriving DecidableEq, Repr

def interfaceOptions : List DevOption :=
  [⟨"duplex".toList, flagMaybeEqualsign⟩, ⟨"speed".toList, flagMaybeEqualsign⟩,
    ⟨"promiscuous".toList, 0⟩]

def commandKeywords : List DevOption := [⟨"iscsi".toList, flagCommand ||| flagIscsi⟩]

def qualifierOptions : List DevOption :=
  [⟨"rawio".toList, flagQualifier⟩, ⟨"ipv6".toList, flagQualifier ||| flagIpv6⟩,
    ⟨"bootp".toList, flagQualifier⟩, ⟨"dhcpv6".toList, flagQualifier ||| flagMaybeEqualsign⟩,
    ⟨"isns".toList, flagQualifier ||| flagMaybeEqualsign⟩,
    ⟨"slp".toList, flagQualifier ||| flagMaybeEqualsign⟩]

def tftpIpv6BootstrapOptions : List DevOption :=
  [⟨"dhcpv6".toList, flagMaybeEqualsign⟩, ⟨"ciaddr".toList, flagNeedsEqualsign⟩,
    ⟨"giaddr".toList, flagNeedsEqualsign⟩, ⟨"siaddr".toList, flagNeedsEqualsign⟩,
    ⟨"filename".toList, flagNeedsEqualsign ||| flagFilename⟩,
    ⟨"tftp-retries".toList, flagNeedsEqualsign⟩, ⟨"blksize".toList, flagNeedsEqualsign⟩]

/-- The search for the option `b` in a table: the last value of `match`, and the entry at
which the search breaks off. A name that fits while its equal sign is missing does not end
the search. -/
def matchOption (b : CStr) : List DevOption → Bool → Bool × Option DevOption
  | [], found => (found, none)
  | opt :: rest, found =>
    if opt.name.length ≤ b.length then
      let found := b.takeWhile (· ≠ '=') == opt.name
      if found && !('=' ∉ b && opt.flag &&& flagNeedsEqualsign ≠ 0) then (true, some opt)
      else matchOption b rest found
    else matchOption b rest found

/-- The loop of `parse_options` from `s` on, with the flags so far and the length passed. A
name that fits without its equal sign sends the loop round without an advance. -/
def parseOptionsLoop (opts : List DevOption) (stopflag : Nat) :
    Nat → CStr → Nat → Nat → Option (Nat × Nat)
  | 0, _, _, _ => none
  | fuel + 1, s, flags, len =>
    let b := s.takeWhile (· ≠ ',')
    if b.length = 0 ∨ 63 < b.length then some (flags, len)
    else
      match matchOption b opts false with
      | (_, some opt) =>
        if opt.flag &&& stopflag ≠ 0 then some (flags ||| opt.flag, len + opt.name.length + 1)
        else if (strchr s ',').isSome then
          parseOptionsLoop opts stopflag fuel (s.drop (b.length + 1)) (flags ||| opt.flag)
            (len + b.length + 1)
        else some (flags ||| opt.flag, len)
      | (found, none) =>
        if found && (strchr s ',').isSome then parseOptionsLoop opts stopflag fuel s flags len
        else some (flags, len)

/-- `parse_options`: the path's flags and the length of what was found at `offset`. -/
def parseOptions (fuel : Nat) (string : CStr) (offset flags : Nat) (opts : List DevOption)
    (stopflag : Nat) : Option (Nat × Nat) :=
  if string = [] then some (flags, 0)
  else parseOptionsLoop opts stopflag fuel (string.drop offset) flags 0

/-! ## Network devices -/

/-- `get_iscsi_options`. -/
def getIscsiOptions (fw : Firmware) (path : PathDescription) : PathDescription :=
  let path := { path with part := -1, type := .iscsi }
  match fw.nasBootdevice with
  | none => path
  | some p => { path with device := some p }

/-- The string up to the first comma, and what stands behind it. -/
def splitComma (s : CStr) : CStr × Option CStr :=
  (s.takeWhile (· ≠ ','), (strchr s ',').map List.tail)

/-- `get_tftp_ipv6_options`. -/
def getTftpIpv6Options (fuel : Nat) (path : PathDescription) (options : CStr) (offset : Nat) :
    Option PathDescription := do
  let (flags, len) ←
    parseOptions fuel options offset path.flags tftpIpv6BootstrapOptions flagFilename
  let path := { path with flags := flags }
  if len = 0 then return path
  let offset := offset + len
  let (name, after) := splitComma (options.drop offset)
  let path := { path with s1 := some (options.take offset), filename := some name }
  match after with
  | none => return path
  | some after => return { path with s2 := some after }

/-- `ipv4_to_ascii`. -/
def ipv4ToAscii (ip : Nat) : CStr :=
  decimal (ip / 2 ^ 24 % 256) ++ '.' :: decimal (ip / 2 ^ 16 % 256)
    ++ '.' :: decimal (ip / 2 ^ 8 % 256) ++ '.' :: decimal (ip % 256)

/-- The loop of `ascii_to_ipv4`, `left` octets from `ptr` on. -/
def asciiToIpv4Loop : Nat → CStr → Nat → Nat
  | 0, _, ip => ip
  | left + 1, ptr, ip =>
    let (tmp, endptr) := simpleStrtol ptr 10
    if tmp < 0 ∨ 255 < tmp then 0
    else if endptr = [] ∧ left ≠ 0 then 0
    else if endptr ≠ [] ∧ endptr.head? ≠ some '.' then 0
    else asciiToIpv4Loop left endptr.tail (u32 (ip + tmp.toNat * 2 ^ (8 * left)))

def asciiToIpv4 (str : CStr) : Nat := asciiToIpv4Loop 4 str 0

/-- The big-endian word of a packet. -/
def packetWord (dp : Bytes) (p : Nat) : Nat :=
  (dp p).toNat * 2 ^ 24 + (dp (p + 1)).toNat * 2 ^ 16 + (dp (p + 2)).toNat * 2 ^ 8
    + (dp (p + 3)).toNat

/-- The loop of `get_dhcp_ipv4_options` from `p` on, with `size` bytes left. -/
def dhcpOptionsLoop (dp : Bytes) : Nat → Nat → Int → Nat → Nat → Nat × Nat
  | 0, _, _, netmask, gateway => (netmask, gateway)
  | fuel + 1, p, size, netmask, gateway =>
    if size ≤ 0 then (netmask, gateway)
    else
      let value := dp p
      if value = 0 then dhcpOptionsLoop dp fuel (p + 1) (size - 1) netmask gateway
      else if value = 255 then (netmask, gateway)
      else
        let len := (dp (p + 1)).toNat
        if size - 2 < len then (netmask, gateway)
        else
          dhcpOptionsLoop dp fuel (p + 2 + len) (size - 2 - len)
            (if value = 1 then packetWord dp (p + 2) else netmask)
            (if value = 3 then packetWord dp (p + 2) else gateway)

/-- `get_dhcp_ipv4_options`: netmask and gateway. The options follow a cookie of four bytes. -/
def getDhcpIpv4Options (dp : Bytes) (size gateway : Nat) : Nat × Nat :=
  let i := 236 + 4
  if i ≤ size then dhcpOptionsLoop dp size i (size - i : Nat) 0 gateway else (0, gateway)

/-- What `get_tftp_ipv4_ibm_CAS` takes from the options: file name, gateway, and where the
retry counts start. -/
def casFields (options : CStr) : Option CStr × Nat × Option CStr :=
  match (strchr options ',').map List.tail with
  | none => (none, 0, none)
  | some p =>
    match strchr p ',' with
    -- nothing after the file name, and `p` stays on it
    | none => (some p, 0, some p)
    | some p1 =>
      let name := p.takeWhile (· ≠ ',')
      match (strchr p1.tail ',').map List.tail with
      | none => (some name, 0, none)
      | some p =>
        match strchr p ',' with
        | none => (some name, 0, some p)
        | some p1 => (some name, asciiToIpv4 (p.takeWhile (· ≠ ',')), some p1.tail)

/-- A retry count at `p`, 5 when there is no number, and what follows it. -/
def retryCount (p : CStr) : Int × CStr :=
  let (n, rest) := simpleStrtol p 10
  (if n = 0 ∧ rest.length = p.length then 5 else n, rest)

/-- The two retry counts. -/
def casRetries (p : Option CStr) : Int × Int :=
  match p with
  | none => (5, 5)
  | some p =>
    let (bootp, rest) := retryCount p
    match strchr rest ',' with
    | none => (bootp, 5)
    | some comma => (bootp, (retryCount comma.tail).1)

/-- `get_tftp_ipv4_ibm_CAS`; `none` where it returns 0. -/
def getTftpIpv4IbmCAS (fw : Firmware) (path : PathDescription) (options : CStr) (offset : Nat) :
    Option PathDescription :=
  match fw.bootpResponse with
  | none => none
  | some (size, dp) =>
    let (name, gateway, p) := casFields (options.drop offset)
    let (bootpRetry, tftpRetry) := casRetries p
    let (netmask, gateway) := getDhcpIpv4Options dp size gateway
    let path :=
      match name with
      | none => path
      | some name => { path with filename := some name }
    some { path with
      s1 := some (options.take offset ++ ipv4ToAscii (packetWord dp 20))
      s2 := some (ipv4ToAscii (packetWord dp 16) ++ ',' :: ipv4ToAscii gateway
        ++ ',' :: decimalInt bootpRetry ++ ',' :: decimalInt tftpRetry
        ++ ',' :: ipv4ToAscii netmask ++ ',' :: decimal 1024) }

/-- `get_tftp_ipv4_options`. -/
def getTftpIpv4Options (fw : Firmware) (path : PathDescription) (options : CStr) (offset : Nat) :
    PathDescription :=
  let rest := options.drop offset
  if rest = [] then
    -- maybe pmac, booted without any options
    { path with s1 := some options }
  else
    match getTftpIpv4IbmCAS fw path options offset with
    | some path => path
    | none =>
      match splitComma rest with
      | (server, some p) =>
        let (name, after) := splitComma p
        let path :=
          { path with s1 := some (options.take (offset + server.length)), filename := some name }
        match after with
        | none => path
        | some after => { path with s2 := some after }
      -- no filename was provided
      | (server, none) => { path with s1 := some server }

/-- `get_tftp_options`. -/
def getTftpOptions (fw : Firmware) (fuel : Nat) (path : PathDescription) (options : CStr)
    (offset : Nat) : Option PathDescription :=
  if path.flags &&& flagIpv6 ≠ 0 then getTftpIpv6Options fuel path options offset
  else some (getTftpIpv4Options fw path options offset)

/-- The three option scans of `parse_net_device`: the flags, and the offset behind them. -/
def scanOptions (fuel : Nat) (options : CStr) (flags : Nat) : Option (Nat × Nat) := do
  let (flags, len₁) ← parseOptions fuel options 0 flags interfaceOptions 0
  let (flags, len₂) ← parseOptions fuel options len₁ flags commandKeywords 0
  let (flags, len₃) ← parseOptions fuel options (len₁ + len₂) flags qualifierOptions 0
  return (flags, len₁ + len₂ + len₃)

/-- `parse_net_device`. -/
def parseNetDevice (fw : Firmware) (fuel : Nat) (path : PathDescription) (options : CStr) :
    Option PathDescription := do
  let (flags, offset) ← scanOptions fuel options path.flags
  let path := { path with flags := flags }
  if path.flags &&& flagIscsi ≠ 0 then return getIscsiOptions fw path
  else getTftpOptions fw fuel path options offset

/-! ## Whole paths -/

/-- `parse_device_path`: the returned code, 1 as `true`, and the description. -/
def parseDevicePath (fw : Firmware) (fuel : Nat) (imagepath : Option CStr)
    (result : PathDescription) : Option (Bool × PathDescription) :=
  match imagepath with
  | none => some (false, result)
  | some imagepath =>
    let (result, options) :=
      if result.type = .unset then
        let device := imagepath.takeWhile (· ≠ ':')
        ({ result with device := some device, type := fw.devtype device },
          imagepath.drop (device.length + 1))
      else (result, imagepath)
    match result.type with
    | .block => some (true, parseBlockDevice result options)
    | .net =>
      let result := { result with mac := fw.mac (result.device.getD []) result.mac }
      (parseNetDevice fw fuel result options).map fun result => (true, result)
    | _ => some (false, result)

/-- `path_description_to_string`; `none` for NULL, and where it would read through a null
pointer. -/
def pathDescriptionToString (input : PathDescription) : Option CStr :=
  match input.device, input.filename with
  | some device, some filename =>
    match input.type with
    | .iscsi | .block =>
      let part := if 0 < input.part then decimalInt input.part ++ [','] else [',']
      some (device ++ ':' :: part ++ input.directory.getD [] ++ filename)
    | .net =>
      input.netBefore.map fun before =>
        device ++ ':' :: before ++ (if input.flags &&& flagIpv6 ≠ 0 then [] else [','])
          ++ filename ++ (input.netAfter.map (',' :: ·)).getD []
    | _ => none
  | _, _ => none

/-- `"&device;:"`. -/
def deviceMark : CStr := "&device;:".toList

/-- The path that `imagepath_to_path_description` builds from the default device, `none` where
it builds none. `pastDevice` is what follows the mark; a null device reads as no text. -/
def defaultPathname (default : PathDescription) (pastDevice : Option CStr) (imagepath : CStr) :
    Option CStr :=
  let device := default.device.getD []
  match default.type with
  | .block =>
    match pastDevice with
    | some p => some (device ++ ':' :: p)
    | none =>
      let part := if 0 < default.part then decimalInt default.part else []
      let dir :=
        if imagepath.head? ≠ some '/' ∧ imagepath.head? ≠ some '\\' then default.directory.getD []
        else []
      some (device ++ ':' :: part ++ ',' :: dir ++ imagepath)
  | .net =>
    let comma := if pastDevice.isNone ∧ default.netAfter.isSome then [','] else []
    some (device ++ ':' :: default.netBefore.getD []
      ++ (if default.flags &&& flagIpv6 ≠ 0 then [] else [','])
      ++ pastDevice.getD imagepath ++ comma ++ default.netAfter.getD [])
  | _ => none

/-- `imagepath_to_path_description(imagepath, &result, &defaultDevice)`: the code, the
description and the default device afterwards. With `same` the two are one object. -/
def imagepathToPathDescription (fw : Firmware) (fuel : Nat) (same : Bool)
    (imagepath : Option CStr) (result defaultDevice : PathDescription) :
    Option (Bool × PathDescription × PathDescription) :=
  match imagepath with
  | none => some (false, result, defaultDevice)
  | some imagepath =>
    let result := PathDescription.zero
    -- the default device is read when the result has been cleared
    let default := if same then result else defaultDevice
    let finish := fun (answer : Bool × PathDescription) =>
      (answer.1, answer.2, if same then answer.2 else default)
    let colon := strchr imagepath ':'
    if colon.isSome ∧ ¬ deviceMark.isPrefixOf imagepath then
      (parseDevicePath fw fuel (some imagepath) result).map finish
    else if default.type = .iscsi then
      some (finish (true,
        { result with part := default.part, device := default.device, filename := some imagepath }))
    else
      (parseDevicePath fw fuel
        (defaultPathname default (colon.map List.tail) imagepath) result).map finish

end LiloBoot.DevPath
