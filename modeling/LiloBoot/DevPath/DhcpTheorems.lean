/-
LiloBoot.DevPath.DhcpTheorems — the options of a bootp response.

An option is a code, a length and that many bytes; a pad is a code alone, and
the end option ends the walk. `optionsFrom` lists the options that are in the
packet as a whole, and `optionsStop` says where the walk comes to its end. The
loop of the source looks for a length behind every code, also when the code is
the last byte, and copies four bytes whatever the length is.
-/
import LiloBoot.DevPath.Parse

namespace LiloBoot.DevPath

/-! ## §1 The options of a packet -/

/-- The length of the option at `q`. -/
def optionLen (dp : Bytes) (q : Nat) : Nat := (dp (q + 1)).toNat

/-- The options from `p` on, up to the end option or one that is not all in the packet. -/
def optionsFrom (dp : Bytes) (size p : Nat) : List Nat :=
  if p < size then
    if dp p = 0 then optionsFrom dp size (p + 1)
    else if dp p = 255 then []
    else if p + 2 + optionLen dp p ≤ size then p :: optionsFrom dp size (p + 2 + optionLen dp p)
    else []
  else []
termination_by size - p

/-- Where the walk from `p` on ends. -/
def optionsStop (dp : Bytes) (size p : Nat) : Nat :=
  if p < size then
    if dp p = 0 then optionsStop dp size (p + 1)
    else if dp p = 255 then p
    else if p + 2 + optionLen dp p ≤ size then optionsStop dp size (p + 2 + optionLen dp p)
    else p
  else p
termination_by size - p

/-- The last option with a code. -/
def lastOf (dp : Bytes) (code : UInt8) (options : List Nat) : Option Nat :=
  (options.filter fun q => dp q = code).getLast?

/-- The first four bytes of an option, or what there is without one. -/
def optionWord (dp : Bytes) (default : Nat) : Option Nat → Nat
  | none => default
  | some q => packetWord dp (q + 2)

/-- The options with a word in them. -/
def wellFormed (dp : Bytes) (options : List Nat) : List Nat :=
  options.filter fun q => 4 ≤ optionLen dp q

/-- `offsetof(struct dhcp_packet, options) + 4`. -/
def optionsOffset : Nat := 236 + 4

/-! ## §2 The walk of the source -/

/-- Netmask, gateway, and the places that were read. -/
structure DhcpRun where
  netmask : Nat
  gateway : Nat
  reads : List Nat
  deriving DecidableEq, Repr

/-- The loop of `get_dhcp_ipv4_options` with its reads; `none` when the fuel is used up. -/
def dhcpRunLoop (dp : Bytes) : Nat → Nat → Int → DhcpRun → Option DhcpRun
  | 0, _, _, _ => none
  | fuel + 1, p, size, run =>
    if size ≤ 0 then some run
    else
      let value := dp p
      let run := { run with reads := p :: run.reads }
      if value = 0 then dhcpRunLoop dp fuel (p + 1) (size - 1) run
      else if value = 255 then some run
      else
        let len := (dp (p + 1)).toNat
        let run := { run with reads := (p + 1) :: run.reads }
        if size - 2 < len then some run
        else
          let run :=
            if value = 1 then
              { run with
                netmask := packetWord dp (p + 2)
                reads := List.range' (p + 2) 4 ++ run.reads }
            else if value = 3 then
              { run with
                gateway := packetWord dp (p + 2)
                reads := List.range' (p + 2) 4 ++ run.reads }
            else run
          dhcpRunLoop dp fuel (p + 2 + len) (size - 2 - len) run

/-- `get_dhcp_ipv4_options` with its reads. -/
def dhcpRun (dp : Bytes) (fuel size gateway : Nat) : Option DhcpRun :=
  if optionsOffset ≤ size then
    dhcpRunLoop dp fuel optionsOffset (size - optionsOffset : Nat) ⟨0, gateway, []⟩
  else some ⟨0, gateway, []⟩

/-- The values are those of `get_dhcp_ipv4_options`. -/
theorem dhcpRunLoop_values (dp : Bytes) (fuel : Nat) : ∀ p size run run',
    dhcpRunLoop dp fuel p size run = some run' →
    dhcpOptionsLoop dp fuel p size run.netmask run.gateway = (run'.netmask, run'.gateway) := by
  induction fuel with
  | zero =>
    intro p size run run' h
    cases h
  | succ fuel ih =>
    intro p size run run' h
    rw [dhcpRunLoop] at h
    rw [dhcpOptionsLoop]
    split at h
    · cases h
      rw [if_pos ‹_›]
    · rw [if_neg ‹_›]
      simp only at h ⊢
      split at h
      · rw [if_pos ‹_›]
        exact ih _ _ { run with reads := p :: run.reads } _ h
      · rw [if_neg ‹_›]
        split at h
        · cases h
          rw [if_pos ‹_›]
        · rw [if_neg ‹_›]
          split at h
          · cases h
            rw [if_pos ‹_›]
          · rw [if_neg ‹_›, ← ih _ _ _ _ h]
            by_cases hmask : dp p = 1
            · simp [hmask]
            · by_cases hrouter : dp p = 3
              · simp [hrouter]
              · simp [hmask, hrouter]

/-! ## §3 What the walk comes to -/

theorem optionsFrom_pad {dp : Bytes} {size p : Nat} (hp : p < size) (hpad : dp p = 0) :
    optionsFrom dp size p = optionsFrom dp size (p + 1)
      ∧ optionsStop dp size p = optionsStop dp size (p + 1) := by
  constructor
  · rw [optionsFrom]
    simp [hp, hpad]
  · rw [optionsStop]
    simp [hp, hpad]

theorem optionsFrom_end {dp : Bytes} {size p : Nat} (h : size ≤ p ∨ dp p = 255) :
    optionsFrom dp size p = [] ∧ optionsStop dp size p = p := by
  rw [optionsFrom, optionsStop]
  rcases h with h | h
  · simp [Nat.not_lt.mpr h]
  · simp [h]

theorem optionsFrom_option {dp : Bytes} {size p : Nat} (hpad : dp p ≠ 0) (hend : dp p ≠ 255)
    (hfits : p + 2 + optionLen dp p ≤ size) :
    optionsFrom dp size p = p :: optionsFrom dp size (p + 2 + optionLen dp p)
      ∧ optionsStop dp size p = optionsStop dp size (p + 2 + optionLen dp p) := by
  have hp : p < size := by omega
  constructor
  · rw [optionsFrom]
    simp [hp, hpad, hend, hfits]
  · rw [optionsStop]
    simp [hp, hpad, hend, hfits]

theorem optionsFrom_cut {dp : Bytes} {size p : Nat} (hpad : dp p ≠ 0)
    (hcut : ¬ p + 2 + optionLen dp p ≤ size) :
    optionsFrom dp size p = [] ∧ optionsStop dp size p = p := by
  rw [optionsFrom, optionsStop]
  simp [hpad, hcut]

theorem optionWord_cons (dp : Bytes) (code : UInt8) (default q : Nat) (options : List Nat) :
    optionWord dp default (lastOf dp code (q :: options))
      = optionWord dp (if dp q = code then packetWord dp (q + 2) else default)
          (lastOf dp code options) := by
  by_cases hcode : dp q = code
  · rw [lastOf, List.filter_cons_of_pos (by simpa using hcode), if_pos hcode, lastOf]
    cases options.filter (fun q => decide (dp q = code)) with
    | nil => rfl
    | cons r rest => simp [List.getLast?_cons, optionWord]
  · rw [lastOf, List.filter_cons_of_neg (by simpa using hcode), if_neg hcode, lastOf]

/-- The walk from `p` on reads no byte behind the packet. -/
structure ReadsInside (dp : Bytes) (size p : Nat) : Prop where
  /-- The four bytes of a netmask or a router are there. -/
  copies : ∀ q ∈ optionsFrom dp size p, dp q = 1 ∨ dp q = 3 → q + 6 ≤ size
  /-- The last byte is not a code whose length would follow. -/
  lengths : optionsStop dp size p + 1 = size → dp (optionsStop dp size p) = 255

/-- Where the walk ends at once, its end is all that counts. -/
theorem readsInside_end {dp : Bytes} {size p : Nat}
    (h : optionsFrom dp size p = [] ∧ optionsStop dp size p = p) :
    ReadsInside dp size p ↔ (p + 1 = size → dp p = 255) := by
  constructor
  · rintro ⟨-, hlengths⟩
    rwa [h.2] at hlengths
  · intro hlengths
    exact ⟨by simp [h.1], by rwa [h.2]⟩

theorem readsInside_pad {dp : Bytes} {size p : Nat} (hp : p < size) (hpad : dp p = 0) :
    ReadsInside dp size p ↔ ReadsInside dp size (p + 1) := by
  obtain ⟨hfrom, hstop⟩ := optionsFrom_pad hp hpad
  constructor
  · rintro ⟨hcopies, hlengths⟩
    exact ⟨by rwa [← hfrom], by rwa [← hstop]⟩
  · rintro ⟨hcopies, hlengths⟩
    exact ⟨by rwa [hfrom], by rwa [hstop]⟩

theorem readsInside_option {dp : Bytes} {size p : Nat} (hpad : dp p ≠ 0) (hend : dp p ≠ 255)
    (hfits : p + 2 + optionLen dp p ≤ size) :
    ReadsInside dp size p ↔
      (dp p = 1 ∨ dp p = 3 → p + 6 ≤ size) ∧ ReadsInside dp size (p + 2 + optionLen dp p) := by
  obtain ⟨hfrom, hstop⟩ := optionsFrom_option hpad hend hfits
  constructor
  · rintro ⟨hcopies, hlengths⟩
    rw [hfrom, List.forall_mem_cons] at hcopies
    exact ⟨hcopies.1, hcopies.2, by rwa [← hstop]⟩
  · rintro ⟨hcopy, hcopies, hlengths⟩
    exact ⟨by rw [hfrom, List.forall_mem_cons]; exact ⟨hcopy, hcopies⟩, by rwa [hstop]⟩

/-- What the loop makes of the packet from `p` on. -/
structure WalkEnds (dp : Bytes) (size p : Nat) (run run' : DhcpRun) : Prop where
  netmask : run'.netmask = optionWord dp run.netmask (lastOf dp 1 (optionsFrom dp size p))
  gateway : run'.gateway = optionWord dp run.gateway (lastOf dp 3 (optionsFrom dp size p))
  reads : (∀ i ∈ run'.reads, i < size) ↔ (∀ i ∈ run.reads, i < size) ∧ ReadsInside dp size p

/-- The option at `p` is copied. -/
def DhcpRun.copy (run : DhcpRun) (dp : Bytes) (p : Nat) : DhcpRun :=
  if dp p = 1 then
    { run with netmask := packetWord dp (p + 2), reads := List.range' (p + 2) 4 ++ run.reads }
  else if dp p = 3 then
    { run with gateway := packetWord dp (p + 2), reads := List.range' (p + 2) 4 ++ run.reads }
  else run

theorem DhcpRun.copy_netmask (run : DhcpRun) (dp : Bytes) (p : Nat) :
    (run.copy dp p).netmask = if dp p = 1 then packetWord dp (p + 2) else run.netmask := by
  unfold DhcpRun.copy
  split
  · rfl
  · split <;> rfl

theorem DhcpRun.copy_gateway (run : DhcpRun) (dp : Bytes) (p : Nat) :
    (run.copy dp p).gateway = if dp p = 3 then packetWord dp (p + 2) else run.gateway := by
  unfold DhcpRun.copy
  by_cases hmask : dp p = 1
  · simp [hmask]
  · by_cases hrouter : dp p = 3
    · simp [hrouter]
    · simp [hmask, hrouter]

theorem DhcpRun.copy_reads (run : DhcpRun) (dp : Bytes) (p size : Nat) :
    (∀ i ∈ (run.copy dp p).reads, i < size) ↔
      (∀ i ∈ run.reads, i < size) ∧ (dp p = 1 ∨ dp p = 3 → p + 6 ≤ size) := by
  have hword : (∀ i ∈ List.range' (p + 2) 4, i < size) ↔ p + 6 ≤ size := by
    simp only [List.mem_range'_1]
    constructor
    · intro h
      have hlast := h (p + 5) (by omega)
      omega
    · intro h i hi
      omega
  unfold DhcpRun.copy
  by_cases hmask : dp p = 1
  · simp only [if_pos hmask, List.forall_mem_append, hword]
    simp [hmask, and_comm]
  · by_cases hrouter : dp p = 3
    · simp only [if_neg hmask, if_pos hrouter, List.forall_mem_append, hword]
      simp [hrouter, and_comm]
    · simp [hmask, hrouter]

/-- With more fuel than there are bytes the loop ends. -/
theorem dhcpRunLoop_ends (dp : Bytes) (size fuel : Nat) : ∀ p rest run, p ≤ size →
    size - p < fuel → rest = (size : Int) - p →
    ∃ run', dhcpRunLoop dp fuel p rest run = some run' ∧ WalkEnds dp size p run run' := by
  induction fuel with
  | zero =>
    intro p rest run _ hfuel
    omega
  | succ fuel ih =>
    intro p rest run hp hfuel hrest
    rw [dhcpRunLoop]
    by_cases hend : size ≤ p
    · have hhere := optionsFrom_end (show size ≤ p ∨ dp p = 255 from .inl hend)
      rw [if_pos (by omega)]
      refine ⟨run, rfl, by rw [hhere.1]; rfl, by rw [hhere.1]; rfl, ?_⟩
      rw [readsInside_end hhere]
      exact ⟨fun h => ⟨h, by omega⟩, fun h => h.1⟩
    have hlt : p < size := Nat.not_le.mp hend
    rw [if_neg (by omega)]
    simp only
    by_cases hpad : dp p = 0
    · obtain ⟨run', hrun, hmask, hgateway, hreads⟩ := ih (p + 1) (rest - 1)
        { run with reads := p :: run.reads } (by omega) (by omega) (by omega)
      rw [if_pos hpad]
      refine ⟨run', hrun, ?_, ?_, ?_⟩
      · rw [hmask, (optionsFrom_pad hlt hpad).1]
      · rw [hgateway, (optionsFrom_pad hlt hpad).1]
      · rw [hreads, readsInside_pad hlt hpad, List.forall_mem_cons, and_iff_right hlt]
    rw [if_neg hpad]
    by_cases hstop : dp p = 255
    · have hhere := optionsFrom_end (show size ≤ p ∨ dp p = 255 from .inr hstop)
      rw [if_pos hstop]
      refine ⟨_, rfl, by rw [hhere.1]; rfl, by rw [hhere.1]; rfl, ?_⟩
      rw [readsInside_end hhere, List.forall_mem_cons, and_iff_right hlt]
      exact ⟨fun h => ⟨h, fun _ => hstop⟩, fun h => h.1⟩
    rw [if_neg hstop]
    by_cases hcut : p + 2 + optionLen dp p ≤ size
    · have hfits : ¬ rest - 2 < ((dp (p + 1)).toNat : Int) := by
        unfold optionLen at hcut
        omega
      obtain ⟨run', hrun, hmask, hgateway, hreads⟩ := ih (p + 2 + optionLen dp p)
        (rest - 2 - optionLen dp p)
        (DhcpRun.copy { run with reads := (p + 1) :: p :: run.reads } dp p)
        hcut (by omega) (by push_cast; omega)
      rw [if_neg hfits]
      refine ⟨run', hrun, ?_, ?_, ?_⟩
      · rw [hmask, (optionsFrom_option hpad hstop hcut).1, optionWord_cons, DhcpRun.copy_netmask]
      · rw [hgateway, (optionsFrom_option hpad hstop hcut).1, optionWord_cons, DhcpRun.copy_gateway]
      · have hsecond : p + 1 < size := by omega
        rw [hreads, readsInside_option hpad hstop hcut, DhcpRun.copy_reads, List.forall_mem_cons,
          List.forall_mem_cons, and_iff_right hlt, and_iff_right hsecond, and_assoc]
    · have hhere := optionsFrom_cut hpad hcut
      have hshort : rest - 2 < ((dp (p + 1)).toNat : Int) := by
        unfold optionLen at hcut
        omega
      rw [if_pos hshort]
      refine ⟨_, rfl, by rw [hhere.1]; rfl, by rw [hhere.1]; rfl, ?_⟩
      rw [readsInside_end hhere, List.forall_mem_cons, List.forall_mem_cons, and_iff_right hlt]
      constructor
      · rintro ⟨hlen, hrun⟩
        exact ⟨hrun, by omega⟩
      · rintro ⟨hrun, hlengths⟩
        refine ⟨?_, hrun⟩
        by_contra hlast
        exact hstop (hlengths (by omega))

/-! ## §4 Netmask and router -/

/-- The netmask of a packet, 0 if there is none. -/
def packetNetmask (dp : Bytes) (size : Nat) : Nat :=
  optionWord dp 0 (lastOf dp 1 (wellFormed dp (optionsFrom dp size optionsOffset)))

/-- The router of a packet, `gateway` if there is none. -/
def packetRouter (dp : Bytes) (size gateway : Nat) : Nat :=
  optionWord dp gateway (lastOf dp 3 (wellFormed dp (optionsFrom dp size optionsOffset)))

/-- The walk ends, within the packet, with the last netmask and router. -/
def WalkGood (dp : Bytes) (size gateway : Nat) : Prop :=
  ∃ run, dhcpRun dp size size gateway = some run ∧ (∀ i ∈ run.reads, i < size)
    ∧ run.netmask = packetNetmask dp size ∧ run.gateway = packetRouter dp size gateway

/-- The last option with a code is long enough for a word, or what stands behind its length is
what is to be taken all the same. -/
def LastLong (dp : Bytes) (size : Nat) (code : UInt8) (default : Nat) : Prop :=
  ∀ q, lastOf dp code (optionsFrom dp size optionsOffset) = some q → optionLen dp q < 4 →
    packetWord dp (q + 2)
      = optionWord dp default (lastOf dp code (wellFormed dp (optionsFrom dp size optionsOffset)))

theorem lastOf_wellFormed {dp : Bytes} {code : UInt8} {options : List Nat} {q : Nat}
    (h : lastOf dp code options = some q) (hlong : 4 ≤ optionLen dp q) :
    lastOf dp code (wellFormed dp options) = some q := by
  obtain ⟨before, hsplit⟩ := List.getLast?_eq_some_iff.mp h
  rw [lastOf, wellFormed, List.filter_comm, hsplit, List.filter_append]
  simp [hlong]

/-- What stands at the last option is what is wanted if that option is long enough, or by
chance. -/
theorem lastLong_iff (dp : Bytes) (size : Nat) (code : UInt8) (default : Nat) :
    optionWord dp default (lastOf dp code (optionsFrom dp size optionsOffset))
        = optionWord dp default
            (lastOf dp code (wellFormed dp (optionsFrom dp size optionsOffset)))
      ↔ LastLong dp size code default := by
  unfold LastLong
  cases hlast : lastOf dp code (optionsFrom dp size optionsOffset) with
  | none =>
    have hnone : lastOf dp code (wellFormed dp (optionsFrom dp size optionsOffset)) = none := by
      rw [lastOf, List.getLast?_eq_none_iff] at hlast
      rw [lastOf, wellFormed, List.filter_comm, hlast]
      rfl
    simp [hnone]
  | some q =>
    by_cases hlong : 4 ≤ optionLen dp q
    · rw [lastOf_wellFormed hlast hlong]
      simp only [true_iff]
      rintro _ ⟨⟩ hshort
      omega
    · constructor
      · rintro heq _ ⟨⟩ -
        exact heq
      · intro h
        exact h q rfl (Nat.not_le.mp hlong)

/-- The fuel of `get_dhcp_ipv4_options` is enough. -/
theorem dhcpRun_ends (dp : Bytes) (size gateway : Nat) :
    ∃ run, dhcpRun dp size size gateway = some run
      ∧ WalkEnds dp size optionsOffset ⟨0, gateway, []⟩ run := by
  unfold dhcpRun
  by_cases hsize : optionsOffset ≤ size
  · rw [if_pos hsize]
    exact dhcpRunLoop_ends dp size size optionsOffset _ _ hsize
      (by unfold optionsOffset at *; omega) (by push_cast [hsize]; rfl)
  · have hhere := optionsFrom_end
      (show size ≤ optionsOffset ∨ dp optionsOffset = 255 from .inl (Nat.le_of_not_le hsize))
    rw [if_neg hsize]
    refine ⟨_, rfl, by rw [hhere.1]; rfl, by rw [hhere.1]; rfl, ?_⟩
    rw [readsInside_end hhere]
    exact ⟨fun h => ⟨h, by omega⟩, fun h => h.1⟩

/-- The run gives what `get_dhcp_ipv4_options` gives. -/
theorem getDhcpIpv4Options_run {dp : Bytes} {size gateway : Nat} {run : DhcpRun}
    (h : dhcpRun dp size size gateway = some run) :
    getDhcpIpv4Options dp size gateway = (run.netmask, run.gateway) := by
  unfold dhcpRun at h
  unfold getDhcpIpv4Options
  by_cases hsize : optionsOffset ≤ size
  · rw [if_pos hsize] at h
    have hvalues := dhcpRunLoop_values dp size _ _ ⟨0, gateway, []⟩ run h
    simp only
    rw [if_pos (by exact hsize)]
    exact hvalues
  · rw [if_neg hsize] at h
    cases h
    simp only
    rw [if_neg (by exact hsize)]

/-- **The DHCP options**: the walk over a packet always ends; it stays inside and takes the
netmask and router that it should exactly if no code is the last byte it comes to, every
netmask and router has four bytes behind its length, and the last of each kind is that long. -/
theorem dhcp_walk_good_iff (dp : Bytes) (size gateway : Nat) : WalkGood dp size gateway ↔
    ReadsInside dp size optionsOffset ∧ LastLong dp size 1 0 ∧ LastLong dp size 3 gateway := by
  obtain ⟨run, hrun, hends⟩ := dhcpRun_ends dp size gateway
  have hreads : (∀ i ∈ run.reads, i < size) ↔ ReadsInside dp size optionsOffset := by
    rw [hends.reads]
    simp
  have hmask : run.netmask = packetNetmask dp size ↔ LastLong dp size 1 0 := by
    rw [hends.netmask]
    exact lastLong_iff dp size 1 0
  have hrouter : run.gateway = packetRouter dp size gateway ↔ LastLong dp size 3 gateway := by
    rw [hends.gateway]
    exact lastLong_iff dp size 3 gateway
  rw [← hreads, ← hmask, ← hrouter, WalkGood]
  constructor
  · rintro ⟨run', hrun', hgood⟩
    cases hrun.symm.trans hrun'
    exact hgood
  · intro hgood
    exact ⟨run, hrun, hgood⟩

/-- A packet with the given bytes behind the cookie. -/
def packetOf (options : List UInt8) : Bytes := fun i => options.getD (i - optionsOffset) 0

/-- A netmask of two bytes, and the end option. -/
def shortMask : Bytes := packetOf [1, 2, 10, 11, 255, 0]

/-- The end option and the byte behind it are taken for half of the netmask. -/
theorem shortMask_taken : dhcpRun shortMask 246 246 0
      = some ⟨0x0a0bff00, 0, [244, 242, 243, 244, 245, 241, 240]⟩
    ∧ ¬ WalkGood shortMask 246 0 := by
  have hrun : dhcpRun shortMask 246 246 0
      = some ⟨0x0a0bff00, 0, [244, 242, 243, 244, 245, 241, 240]⟩ := by decide +kernel
  refine ⟨hrun, ?_⟩
  rintro ⟨run, hrun', -, hmask, -⟩
  cases hrun.symm.trans hrun'
  have hoptions : optionsFrom shortMask 246 optionsOffset = [240] := by
    rw [(optionsFrom_option (by decide) (by decide) (by decide)).1,
      (optionsFrom_end (.inr (by decide))).1]
    rfl
  rw [packetNetmask, hoptions] at hmask
  exact absurd hmask (by decide)

end LiloBoot.DevPath
