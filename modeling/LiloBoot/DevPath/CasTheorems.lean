/-
LiloBoot.DevPath.CasTheorems — the static boot path for the CAS firmware.

`server,filename,client,gateway,bootp-retry,tftp-retry,netmask,blocksize` can
end behind every text. One pointer moves along the commas; where a comma is
missing it stays on a file name or on a gateway, and the retry count is read
from there. The gateway is copied into 16 bytes, and a router of the packet
takes its place.
-/
import LiloBoot.DevPath.AddressTheorems
import LiloBoot.DevPath.DhcpTheorems

namespace LiloBoot.DevPath

/-! ## §1 The texts between the commas -/

/-- The text that `get_tftp_ipv4_ibm_CAS` copies to `gw`. -/
def casGateway (options : CStr) : Option CStr :=
  match (strchr options ',').map List.tail with
  | none => none
  | some p =>
    match strchr p ',' with
    | none => none
    | some p1 =>
      match (strchr p1.tail ',').map List.tail with
      | none => none
      | some p =>
        match strchr p ',' with
        | none => none
        | some _ => some (p.takeWhile (· ≠ ','))

/-- The bytes written to `gw`, with the NUL. -/
def gatewayWritten (options : CStr) : Nat :=
  match casGateway options with
  | none => 0
  | some gateway => gateway.length + 1

/-- File name, gateway text and retry counts. -/
structure CasTaken where
  name : Option CStr
  gateway : Option CStr
  bootpRetry : Int
  tftpRetry : Int
  deriving DecidableEq, Repr

/-- What the moving pointer takes from the texts between the commas. -/
def takenOf : List CStr → CasTaken
  | [_, name] => ⟨some name, none, (retryCount name).1, 5⟩
  | [_, name, _] => ⟨some name, none, 5, 5⟩
  | [_, name, _, gateway] => ⟨some name, none, (retryCount gateway).1, 5⟩
  | [_, name, _, gateway, bootp] => ⟨some name, some gateway, (retryCount bootp).1, 5⟩
  | _ :: name :: _ :: gateway :: bootp :: tftp :: _ =>
    ⟨some name, some gateway, (retryCount bootp).1, (retryCount tftp).1⟩
  | _ => ⟨none, none, 5, 5⟩

/-- At a comma a number ends, as at the end of the string. -/
theorem retryCount_comma (t s : CStr) (h : ',' ∉ t) :
    (retryCount (t ++ ',' :: s)).1 = (retryCount t).1
      ∧ ∃ rest, ',' ∉ rest ∧ (retryCount (t ++ ',' :: s)).2 = rest ++ ',' :: s := by
  obtain ⟨pre, post, rfl, -, -, -, hread⟩ := exists_unsigned t
  have halone := hread [] (by simp) (by simp)
  have hcomma := hread (',' :: s) (by simp) (by simp)
  rw [List.append_nil, List.append_nil] at halone
  refine ⟨?_, post, fun hin => h (List.mem_append_right _ hin), ?_⟩
  · simp only [retryCount, halone, hcomma, List.length_append, List.length_cons]
    simp
  · simp only [retryCount, hcomma]

theorem casRetries_last {t : CStr} (h : ',' ∉ t) :
    casRetries (some t) = ((retryCount t).1, 5) := by
  have hrest : strchr (retryCount t).2 ',' = none := by
    refine strchr_eq_none.mpr fun hin => h ?_
    exact simpleStrtol_rest hin
  simp only [casRetries, hrest]

theorem casRetries_comma {t : CStr} (h : ',' ∉ t) (s : CStr) :
    casRetries (some (t ++ ',' :: s)) = ((retryCount t).1, (retryCount s).1) := by
  obtain ⟨hvalue, rest, hrest, hbehind⟩ := retryCount_comma t s h
  simp only [casRetries, hvalue, hbehind, strchr_append hrest, List.tail_cons]

/-- The pointer and its commas, as texts. -/
theorem casFields_taken (s : CStr) :
    (casFields s).1 = (takenOf (s.splitOn ',')).name
      ∧ (casFields s).2.1 = ((takenOf (s.splitOn ',')).gateway.map asciiToIpv4).getD 0
      ∧ casGateway s = (takenOf (s.splitOn ',')).gateway
      ∧ casRetries (casFields s).2.2
        = ((takenOf (s.splitOn ',')).bootpRetry, (takenOf (s.splitOn ',')).tftpRetry) := by
  rcases splitOn_cases s ',' with ⟨hno, hone⟩ | ⟨server, s, hserver, rfl, hmore⟩
  · rw [hone, casFields, casGateway, strchr_eq_none.mpr hno]
    exact ⟨rfl, rfl, rfl, rfl⟩
  rw [hmore, casFields, casGateway, strchr_append hserver]
  simp only [Option.map_some, List.tail_cons]
  rcases splitOn_cases s ',' with ⟨hno, hone⟩ | ⟨name, s, hname, rfl, hmore⟩
  · rw [hone, strchr_eq_none.mpr hno]
    exact ⟨rfl, rfl, rfl, casRetries_last hno⟩
  rw [hmore, strchr_append hname]
  simp only [List.tail_cons, takeWhile_text hname]
  rcases splitOn_cases s ',' with ⟨hno, hone⟩ | ⟨client, s, hclient, rfl, hmore⟩
  · rw [hone, strchr_eq_none.mpr hno]
    exact ⟨rfl, rfl, rfl, rfl⟩
  rw [hmore, strchr_append hclient]
  simp only [Option.map_some, List.tail_cons]
  rcases splitOn_cases s ',' with ⟨hno, hone⟩ | ⟨gateway, s, hgateway, rfl, hmore⟩
  · rw [hone, strchr_eq_none.mpr hno]
    exact ⟨rfl, rfl, rfl, casRetries_last hno⟩
  rw [hmore, strchr_append hgateway]
  simp only [List.tail_cons, takeWhile_text hgateway]
  rcases splitOn_cases s ',' with ⟨hno, hone⟩ | ⟨bootp, s, hbootp, rfl, hmore⟩
  · rw [hone]
    exact ⟨rfl, rfl, rfl, casRetries_last hno⟩
  rw [hmore, casRetries_comma hbootp]
  rcases splitOn_cases s ',' with ⟨hno, hone⟩ | ⟨tftp, s, htftp, rfl, hmore⟩
  · rw [hone]
    exact ⟨rfl, rfl, rfl, rfl⟩
  · rw [hmore, (retryCount_comma tftp s htftp).1]
    exact ⟨rfl, rfl, rfl, rfl⟩

/-! ## §2 What the format says -/

/-- The numbers of the boot path. -/
structure CasValues where
  gateway : Nat
  bootpRetry : Int
  tftpRetry : Int
  netmask : Nat
  deriving DecidableEq, Repr

/-- The numbers that `get_tftp_ipv4_ibm_CAS` uses. -/
def casValues (options : CStr) (size : Nat) (dp : Bytes) : CasValues :=
  let (_, gateway, p) := casFields options
  let (bootpRetry, tftpRetry) := casRetries p
  let (netmask, gateway) := getDhcpIpv4Options dp size gateway
  ⟨gateway, bootpRetry, tftpRetry, netmask⟩

/-- `client,gateway,bootp-retry,tftp-retry,netmask,1024`. -/
def casNetAfter (dp : Bytes) (v : CasValues) : CStr :=
  ipv4ToAscii (packetWord dp 16) ++ ',' :: ipv4ToAscii v.gateway ++ ',' :: decimalInt v.bootpRetry
    ++ ',' :: decimalInt v.tftpRetry ++ ',' :: ipv4ToAscii v.netmask ++ ',' :: decimal 1024

/-- A text that is there and not empty. -/
def given (t : Option CStr) : Option CStr := t.filter (· ≠ [])

/-- The number of a retry count, 5 without one. -/
def countOf (t : Option CStr) : Int :=
  match given t with
  | none => 5
  | some t => (retryCount t).1

/-- The numbers at the places of the format: a gateway that is not given is the packet's. -/
def casExpected (options : CStr) (size : Nat) (dp : Bytes) : CasValues where
  gateway :=
    match given (options.splitOn ',')[3]? with
    | none => (getDhcpIpv4Options dp size 0).2
    | some gateway => asciiToIpv4 gateway
  bootpRetry := countOf (options.splitOn ',')[4]?
  tftpRetry := countOf (options.splitOn ',')[5]?
  netmask := (getDhcpIpv4Options dp size 0).1

/-- `3 * sizeof(buf) + 3 * sizeof(buf) + 5 + 1`. -/
def netAfterAlloc : Nat := 3 * 16 + 3 * 16 + 5 + 1

/-- The path is made of the texts at their places, and nothing is written behind a buffer. -/
structure CasGood (fw : Firmware) (path : PathDescription) (options : CStr) (offset size : Nat)
    (dp : Bytes) : Prop where
  values : casValues (options.drop offset) size dp = casExpected (options.drop offset) size dp
  path : ∃ d, getTftpIpv4IbmCAS fw path options offset = some d
    ∧ d.filename = ((options.drop offset).splitOn ',')[1]?.or path.filename
    ∧ d.netAfter = some (casNetAfter dp (casExpected (options.drop offset) size dp))
  gateway : gatewayWritten (options.drop offset) ≤ 16
  fits : (casNetAfter dp (casValues (options.drop offset) size dp)).length + 1 ≤ netAfterAlloc

/-! ## §3 What is written -/

theorem decimal_length_le {n k : Nat} (hk : 0 < k) (h : n < 10 ^ k) : (decimal n).length ≤ k :=
  (Nat.length_toDigits_le_iff (by decide) hk).mpr h

theorem ipv4ToAscii_length (ip : Nat) : (ipv4ToAscii ip).length ≤ 15 := by
  have hoctet : ∀ n, (decimal (n % 256)).length ≤ 3 := fun n =>
    decimal_length_le (by decide) (by omega)
  have h1 := hoctet (ip / 2 ^ 24)
  have h2 := hoctet (ip / 2 ^ 16)
  have h3 := hoctet (ip / 2 ^ 8)
  have h4 := hoctet ip
  simp only [ipv4ToAscii, List.length_append, List.length_cons]
  omega

theorem decimalInt_length {i : Int} (h : -2 ^ 31 ≤ i ∧ i < 2 ^ 31) :
    (decimalInt i).length ≤ 11 := by
  have hdigits : (decimal i.natAbs).length ≤ 10 := decimal_length_le (by decide) (by omega)
  unfold decimalInt
  split
  · rw [List.length_cons]
    omega
  · omega

theorem retryCount_range (t : CStr) : -2 ^ 31 ≤ (retryCount t).1 ∧ (retryCount t).1 < 2 ^ 31 := by
  simp only [retryCount]
  split
  · decide
  · exact simpleStrtol_range t 10

theorem given_some {t : CStr} (h : t ≠ []) : given (some t) = some t := by
  simp [given, Option.filter, h]

theorem countOf_some (t : CStr) : countOf (some t) = (retryCount t).1 := by
  by_cases ht : t = []
  · subst ht
    decide
  · simp [countOf, given_some ht]

/-- The text for counts that are `int`s and its NUL fit. -/
theorem casNetAfter_fits (dp : Bytes) {v : CasValues}
    (hbootp : -2 ^ 31 ≤ v.bootpRetry ∧ v.bootpRetry < 2 ^ 31)
    (htftp : -2 ^ 31 ≤ v.tftpRetry ∧ v.tftpRetry < 2 ^ 31) :
    (casNetAfter dp v).length + 1 ≤ netAfterAlloc := by
  have hclient := ipv4ToAscii_length (packetWord dp 16)
  have hgateway := ipv4ToAscii_length v.gateway
  have hnetmask := ipv4ToAscii_length v.netmask
  have hfirst := decimalInt_length hbootp
  have hsecond := decimalInt_length htftp
  have hblock : (decimal 1024).length = 4 := by decide
  simp only [casNetAfter, List.length_append, List.length_cons, netAfterAlloc, hblock]
  omega

theorem takenOf_range (texts : List CStr) :
    (-2 ^ 31 ≤ (takenOf texts).bootpRetry ∧ (takenOf texts).bootpRetry < 2 ^ 31)
      ∧ -2 ^ 31 ≤ (takenOf texts).tftpRetry ∧ (takenOf texts).tftpRetry < 2 ^ 31 := by
  have hdefault : -2 ^ 31 ≤ (5 : Int) ∧ (5 : Int) < 2 ^ 31 := by decide
  unfold takenOf
  split
  · exact ⟨retryCount_range _, hdefault⟩
  · exact ⟨hdefault, hdefault⟩
  · exact ⟨retryCount_range _, hdefault⟩
  · exact ⟨retryCount_range _, hdefault⟩
  · exact ⟨retryCount_range _, retryCount_range _⟩
  · exact ⟨hdefault, hdefault⟩

/-! ## §4 Where the format is followed -/

/-- The router that the walk over a packet leaves. -/
def routerOf (dp : Bytes) (size : Nat) : Option Nat :=
  (lastOf dp 3 (optionsFrom dp size optionsOffset)).map fun q => packetWord dp (q + 2)

theorem getDhcpIpv4Options_gateway (dp : Bytes) (size gateway : Nat) :
    getDhcpIpv4Options dp size gateway
      = ((getDhcpIpv4Options dp size 0).1, (routerOf dp size).getD gateway) := by
  obtain ⟨run, hrun, hends⟩ := dhcpRun_ends dp size gateway
  obtain ⟨run₀, hrun₀, hends₀⟩ := dhcpRun_ends dp size 0
  rw [getDhcpIpv4Options_run hrun, getDhcpIpv4Options_run hrun₀, hends.netmask, hends₀.netmask,
    hends.gateway, routerOf]
  cases lastOf dp 3 (optionsFrom dp size optionsOffset) with
  | none => rfl
  | some q => rfl

/-- The string is not cut where the pointer stays on a number, a gateway that is copied fits, and
the packet has no other router than the one given. -/
def Followed (size : Nat) (dp : Bytes) : List CStr → Prop
  | [_, name] => (retryCount name).1 = 5
  | [_, _, _, gateway] =>
    (retryCount gateway).1 = 5
      ∧ (gateway ≠ [] → (routerOf dp size).getD 0 = asciiToIpv4 gateway)
  | _ :: _ :: _ :: gateway :: _ :: _ =>
    gateway.length ≤ 15
      ∧ (gateway ≠ [] → (routerOf dp size).getD (asciiToIpv4 gateway) = asciiToIpv4 gateway)
  | _ => True

/-- A gateway that is not given is the packet's. -/
theorem gateway_given_iff (gateway : CStr) (default router : Nat) :
    router = ((given (some gateway)).map asciiToIpv4).getD default
      ↔ if gateway = [] then router = default else router = asciiToIpv4 gateway := by
  by_cases h : gateway = []
  · subst h
    rfl
  · rw [given_some h, if_neg h]
    rfl

/-- The numbers and the copy, for each number of texts. -/
theorem taken_followed_iff (texts : List CStr) (size : Nat) (dp : Bytes) :
    (((routerOf dp size).getD (((takenOf texts).gateway.map asciiToIpv4).getD 0)
          = (((given texts[3]?).map asciiToIpv4).getD ((routerOf dp size).getD 0))
        ∧ (takenOf texts).bootpRetry = countOf texts[4]?
        ∧ (takenOf texts).tftpRetry = countOf texts[5]?)
      ∧ ((takenOf texts).gateway.map fun gateway => gateway.length + 1).getD 0 ≤ 16)
      ↔ Followed size dp texts := by
  have hnone : countOf none = 5 := rfl
  have hmissing : given none = none := rfl
  have hzero : asciiToIpv4 [] = 0 := by decide
  rcases texts with _ | ⟨server, _ | ⟨name, _ | ⟨client, _ | ⟨gateway, _ | ⟨bootp, more⟩⟩⟩⟩⟩
  · simp [takenOf, Followed, hnone, hmissing]
  · simp [takenOf, Followed, hnone, hmissing]
  · simp [takenOf, Followed, hnone, hmissing]
  · simp [takenOf, Followed, hnone, hmissing]
  · simp only [takenOf, Followed, List.getElem?_cons_succ, List.getElem?_cons_zero,
      gateway_given_iff]
    by_cases hgateway : gateway = []
    · simp [hgateway, hnone]
    · simpa [hgateway, hnone] using and_comm
  · have htaken : (takenOf (server :: name :: client :: gateway :: bootp :: more)).gateway
        = some gateway := by cases more <;> rfl
    have hbootp : (takenOf (server :: name :: client :: gateway :: bootp :: more)).bootpRetry
        = (retryCount bootp).1 := by cases more <;> rfl
    have htftp : (takenOf (server :: name :: client :: gateway :: bootp :: more)).tftpRetry
        = countOf more[0]? := by
      cases more with
      | nil => rfl
      | cons tftp more => exact (countOf_some tftp).symm
    simp only [htaken, hbootp, htftp, Followed, List.getElem?_cons_succ, List.getElem?_cons_zero,
      gateway_given_iff, countOf_some]
    by_cases hgateway : gateway = []
    · simp [hgateway, hzero]
    · simpa [hgateway, Nat.lt_succ_iff] using and_comm

theorem casValues_taken (options : CStr) (size : Nat) (dp : Bytes) :
    casValues options size dp
      = ⟨(routerOf dp size).getD (((takenOf (options.splitOn ',')).gateway.map asciiToIpv4).getD 0),
        (takenOf (options.splitOn ',')).bootpRetry, (takenOf (options.splitOn ',')).tftpRetry,
        (getDhcpIpv4Options dp size 0).1⟩ := by
  obtain ⟨-, hgateway, -, hretries⟩ := casFields_taken options
  rw [← hgateway]
  simp only [casValues, hretries]
  rw [getDhcpIpv4Options_gateway]

/-- What is printed behind the file name always fits. -/
theorem casValues_fits (options : CStr) (size : Nat) (dp : Bytes) :
    (casNetAfter dp (casValues options size dp)).length + 1 ≤ netAfterAlloc := by
  obtain ⟨hbootp, htftp⟩ := takenOf_range (options.splitOn ',')
  rw [casValues_taken]
  exact casNetAfter_fits dp hbootp htftp

theorem casExpected_eq (options : CStr) (size : Nat) (dp : Bytes) :
    casExpected options size dp
      = ⟨((given (options.splitOn ',')[3]?).map asciiToIpv4).getD ((routerOf dp size).getD 0),
        countOf (options.splitOn ',')[4]?, countOf (options.splitOn ',')[5]?,
        (getDhcpIpv4Options dp size 0).1⟩ := by
  have hrouter : (getDhcpIpv4Options dp size 0).2 = (routerOf dp size).getD 0 :=
    congrArg Prod.snd (getDhcpIpv4Options_gateway dp size 0)
  simp only [casExpected, hrouter]
  cases given (options.splitOn ',')[3]? <;> rfl

theorem gatewayWritten_taken (options : CStr) : gatewayWritten options
    = ((takenOf (options.splitOn ',')).gateway.map fun gateway => gateway.length + 1).getD 0 := by
  obtain ⟨-, -, hgateway, -⟩ := casFields_taken options
  rw [gatewayWritten, hgateway]
  cases (takenOf (options.splitOn ',')).gateway <;> rfl

theorem takenOf_name (texts : List CStr) : (takenOf texts).name = texts[1]? := by
  rcases texts with _ | ⟨server, _ | ⟨name, _ | ⟨client, _ | ⟨gateway, _ | ⟨bootp, more⟩⟩⟩⟩⟩
  iterate 5 rfl
  cases more <;> rfl

/-- What `get_tftp_ipv4_ibm_CAS` leaves, in the numbers it uses. -/
theorem getTftpIpv4IbmCAS_eq {fw : Firmware} {size : Nat} {dp : Bytes}
    (hboot : fw.bootpResponse = some (size, dp)) (path : PathDescription) (options : CStr)
    (offset : Nat) : getTftpIpv4IbmCAS fw path options offset =
      some { path with
        filename := ((options.drop offset).splitOn ',')[1]?.or path.filename
        s1 := some (options.take offset ++ ipv4ToAscii (packetWord dp 20))
        s2 := some (casNetAfter dp (casValues (options.drop offset) size dp)) } := by
  obtain ⟨hname, -, -, -⟩ := casFields_taken (options.drop offset)
  rw [takenOf_name] at hname
  rw [getTftpIpv4IbmCAS, hboot, ← hname]
  simp only [casNetAfter, casValues]
  generalize casFields (options.drop offset) = fields
  obtain ⟨name, gateway, p⟩ := fields
  simp only
  generalize casRetries p = retries
  generalize getDhcpIpv4Options dp size gateway = masks
  cases name with
  | none => simp only [Option.none_or]
  | some name => simp only [Option.some_or]

/-- **The static boot path**: file name, gateway and retry counts are those at their places, and
nothing is written behind a buffer, exactly if the string is not cut behind a file name or a
gateway that is read as a number, the gateway has at most 15 characters, and the packet has no
other router. -/
theorem cas_path_good_iff {fw : Firmware} {size : Nat} {dp : Bytes}
    (hboot : fw.bootpResponse = some (size, dp)) (path : PathDescription) (options : CStr)
    (offset : Nat) : CasGood fw path options offset size dp
      ↔ Followed size dp ((options.drop offset).splitOn ',') := by
  have hnumbers : CasGood fw path options offset size dp ↔
      casValues (options.drop offset) size dp = casExpected (options.drop offset) size dp
        ∧ gatewayWritten (options.drop offset) ≤ 16 := by
    constructor
    · intro h
      exact ⟨h.values, h.gateway⟩
    · rintro ⟨hvalues, hgateway⟩
      have hpath := getTftpIpv4IbmCAS_eq hboot path options offset
      rw [hvalues] at hpath
      exact ⟨hvalues, ⟨_, hpath, rfl, rfl⟩, hgateway, casValues_fits _ size dp⟩
  rw [hnumbers, gatewayWritten_taken, casValues_taken, casExpected_eq, ← taken_followed_iff]
  simp only [CasValues.mk.injEq, and_true]

/-- A firmware with a packet of zeros. -/
def casFirmware : Firmware := ⟨fun _ => .net, fun _ mac => mac, none, some (300, fun _ => 0)⟩

/-- `s,f,c,10.0.0.1,3,4` -/
def retryOptions : CStr :=
  ['s', ',', 'f', ',', 'c', ',', '1', '0', '.', '0', '.', '0', '.', '1', ',', '3', ',', '4']

theorem retryOptions_good :
    CasGood casFirmware .zero retryOptions 0 300 (fun _ => 0)
      ↔ Followed 300 (fun _ => 0) ((retryOptions.drop 0).splitOn ',') :=
  cas_path_good_iff rfl .zero retryOptions 0

/-- `s,f,c,10.0.0.1` -/
def cutOptions : CStr :=
  ['s', ',', 'f', ',', 'c', ',', '1', '0', '.', '0', '.', '0', '.', '1']

/-- The gateway is read as a retry count of 10, and the gateway itself is lost. -/
theorem cutOptions_misread :
    casValues cutOptions 300 (fun _ => 0) = ⟨0, 10, 5, 0⟩
      ∧ casExpected cutOptions 300 (fun _ => 0) = ⟨0x0a000001, 5, 5, 0⟩
      ∧ ¬ CasGood casFirmware .zero cutOptions 0 300 (fun _ => 0) := by
  have hread : casValues cutOptions 300 (fun _ => 0) = ⟨0, 10, 5, 0⟩ := by decide +kernel
  have hplaces : casExpected cutOptions 300 (fun _ => 0) = ⟨0x0a000001, 5, 5, 0⟩ := by
    decide +kernel
  refine ⟨hread, hplaces, fun h => ?_⟩
  have hvalues := h.values
  rw [List.drop_zero, hread, hplaces] at hvalues
  cases hvalues

end LiloBoot.DevPath
