/-
LiloBoot.OfNet.NetTheorems — how long a download buffer lives.

`of_net_download` releases the buffer in both of its branches, also when the
download succeeded. So a file that is opened lies in memory that is not
claimed any more, and `of_close` releases it a second time. Runs in which no
download succeeds are the only ones that obey the law.
-/
import LiloBoot.OfNet.Net

namespace LiloBoot.OfNet

/-! ## §1 The monitor -/

theorem Monitor.run_append (m : Monitor) (xs ys : List Event) :
    m.run (xs ++ ys) = (m.run xs).bind (Monitor.run · ys) := by
  induction xs generalizing m with
  | nil => rfl
  | cons e xs ih =>
    simp only [List.cons_append, Monitor.run]
    cases m.step e with
    | none => rfl
    | some m' => exact ih m'

/-- A region claimed and released at once leaves no trace. -/
theorem run_claim_release (claimed : List Region) (r : Region) :
    Monitor.run ⟨claimed, [], []⟩ [.claim r, .release r] = some ⟨claimed, [], []⟩ := by
  simp [Monitor.run, Monitor.step, promRelease]

/-- A file cannot be opened in a region that has been released. -/
theorem run_opened_released {claimed : List Region} {r : Region} (hfresh : r ∉ claimed)
    (file len : Nat) :
    Monitor.run ⟨claimed, [], []⟩ [.claim r, .release r, .opened file r len] = none := by
  simp [Monitor.run, Monitor.step, promRelease, hfresh]

/-! ## §2 Opening -/

/-- The firmware's answers with which a download succeeds. -/
def Firmware.downloads (fw : Firmware) : Bool :=
  fw.promOpen && (promClaimChunkTop fw.claim loadBufferSize).isSome && decide (0 < fw.loadmethod)

/-- Without a download the open fails and has at most claimed and released a region. -/
theorem ofNetOpen_fails {fw : Firmware} (h : fw.downloads = false) (file : Nat) :
    (ofNetOpen fw file).1 ≠ fileErrOk
      ∧ ((ofNetOpen fw file).2.2 = []
        ∨ ∃ r, (ofNetOpen fw file).2.2 = [.claim r, .release r]) := by
  cases hopen : fw.promOpen with
  | false =>
    have hres : ofNetOpen fw file = (fileErrBadFsys, ⟨0, 0, 0⟩, []) := by
      rw [ofNetOpen, hopen]
      rfl
    rw [hres]
    exact ⟨by decide, .inl rfl⟩
  | true =>
    cases hclaim : promClaimChunkTop fw.claim loadBufferSize with
    | none =>
      have hres : ofNetOpen fw file = (fileIoerr, ⟨0, 0, 0⟩, []) := by
        simp [ofNetOpen, hopen, ofNetDownload, hclaim]
      rw [hres]
      exact ⟨by decide, .inl rfl⟩
    | some p =>
      have hload : ¬ fw.loadmethod > 0 := by
        simpa [Firmware.downloads, hopen, hclaim] using h
      have hres : ofNetOpen fw file = (fileIoerr, ⟨0, 0, 0⟩,
          [.claim ⟨p, loadBufferSize⟩, .release ⟨p, loadBufferSize⟩]) := by
        simp [ofNetOpen, hopen, ofNetDownload, hclaim, hload]
      rw [hres]
      exact ⟨show fileIoerr ≠ fileErrOk by decide, .inr ⟨_, rfl⟩⟩

/-- With a download the file is opened in a region that has just been released. -/
theorem ofNetOpen_downloads {fw : Firmware} (h : fw.downloads = true) (file : Nat) :
    ∃ p, promClaimChunkTop fw.claim loadBufferSize = some p
      ∧ ofNetOpen fw file = (fileErrOk, ⟨0, p, fw.loadmethod.toNat⟩,
        [.claim ⟨p, loadBufferSize⟩, .release ⟨p, loadBufferSize⟩,
          .opened file ⟨p, loadBufferSize⟩ fw.loadmethod.toNat]) := by
  simp only [Firmware.downloads, Bool.and_eq_true, decide_eq_true_eq, Option.isSome_iff_exists]
    at h
  obtain ⟨⟨hopen, p, hclaim⟩, hload⟩ := h
  refine ⟨p, hclaim, ?_⟩
  simp [ofNetOpen, hopen, ofNetDownload, hclaim, hload]

/-! ## §3 Runs -/

/-- The step is an open whose download succeeds. -/
def Op.downloads : Op → Bool
  | .open _ fw => fw.downloads
  | _ => false

/-- A step without a download keeps every file closed and obeys the law. -/
theorem step_without {claimed : List Region} {op : Op} (hallowed : op.Allowed ⟨[], claimed⟩)
    (h : op.downloads = false) :
    (step ⟨[], claimed⟩ op).1.files = []
      ∧ Monitor.run ⟨claimed, [], []⟩ (step ⟨[], claimed⟩ op).2
        = some ⟨(step ⟨[], claimed⟩ op).1.claimed, [], []⟩ := by
  cases op with
  | «open» file fw =>
    obtain ⟨hret, hevents⟩ := ofNetOpen_fails h file
    simp only [step]
    generalize ofNetOpen fw file = r at hret hevents
    obtain ⟨ret, f, events⟩ := r
    refine ⟨if_neg hret, ?_⟩
    have hevents : events = [] ∨ ∃ r, events = [.claim r, .release r] := hevents
    rcases hevents with rfl | ⟨r, rfl⟩
    · rfl
    · simp only [List.foldl_cons, List.foldl_nil, Event.apply, promRelease_cons]
      exact run_claim_release claimed r
  | read file size => exact absurd hallowed (by simp [Op.Allowed])
  | seek file newpos => exact absurd hallowed (by simp [Op.Allowed])
  | close file => exact absurd hallowed (by simp [Op.Allowed])
  | claimOther r => exact ⟨rfl, rfl⟩
  | releaseOther r =>
    refine ⟨rfl, ?_⟩
    have hmem : r ∈ claimed := hallowed
    simp [step, Monitor.run, Monitor.step, hmem]

/-- A step with a download breaks the law. -/
theorem step_with {claimed : List Region} {op : Op} (hallowed : op.Allowed ⟨[], claimed⟩)
    (h : op.downloads = true) :
    Monitor.run ⟨claimed, [], []⟩ (step ⟨[], claimed⟩ op).2 = none := by
  cases op with
  | «open» file fw =>
    obtain ⟨p, hclaim, hres⟩ := ofNetOpen_downloads h file
    obtain ⟨a, ha⟩ := promClaimChunkTop_answer hclaim
    have hfresh : (⟨p, loadBufferSize⟩ : Region) ∉ claimed :=
      FreshClaims.notMem hallowed.2 (by decide) ha
    simp only [step, hres]
    exact run_opened_released hfresh file fw.loadmethod.toNat
  | read file size => cases h
  | seek file newpos => cases h
  | close file => cases h
  | claimOther r => cases h
  | releaseOther r => cases h

/-- **The life of a download buffer**: from any memory, a run obeys the law exactly if none of
its opens downloads a file. -/
theorem bufferLife_iff (ops : List Op) : ∀ claimed, Lawful ⟨[], claimed⟩ ops →
    (Obeys claimed (trace ⟨[], claimed⟩ ops) ↔ ∀ op ∈ ops, op.downloads = false) := by
  induction ops with
  | nil =>
    intro claimed _
    exact iff_of_true ⟨_, rfl, rfl⟩ fun op hop => absurd hop List.not_mem_nil
  | cons op ops ih =>
    intro claimed hlawful
    obtain ⟨hallowed, hrest⟩ := hlawful
    simp only [trace, Obeys, Monitor.run_append]
    cases h : op.downloads with
    | true =>
      rw [step_with hallowed h]
      refine iff_of_false ?_ fun hall => ?_
      · rintro ⟨m, hm, -⟩
        cases hm
      · exact Bool.false_ne_true ((hall op List.mem_cons_self).symm.trans h)
    | false =>
      obtain ⟨hfiles, hrun⟩ := step_without hallowed h
      rw [hrun]
      generalize (step ⟨[], claimed⟩ op).1 = s at hfiles hrest
      obtain ⟨files, claimed'⟩ := s
      obtain rfl : files = [] := hfiles
      refine (ih claimed' hrest).trans ⟨fun hall o ho => ?_, fun hall o ho => ?_⟩
      · rcases List.mem_cons.mp ho with rfl | ho
        · exact h
        · exact hall o ho
      · exact hall o (List.mem_cons_of_mem _ ho)

/-! ## §4 What a read copies -/

/-- The position of an open file is inside it, and the file inside its buffer. -/
structure BootFile.Valid (f : BootFile) : Prop where
  pos_le : f.pos ≤ f.len
  len_lt : f.len < 2 ^ 31
  end_lt : f.buffer + f.len < 2 ^ 32

theorem ofNetSeek_valid {f : BootFile} (h : f.Valid) (newpos : Nat) :
    (ofNetSeek newpos f).Valid := by
  refine ⟨?_, h.len_lt, h.end_lt⟩
  simp only [ofNetSeek]
  split <;> omega

/-- **A read copies what is asked for or what is left**, from the position on. -/
theorem ofNetRead_spec {f : BootFile} (h : f.Valid) (file size : Nat) :
    ofNetRead file size f
        = (min size (f.len - f.pos), { f with pos := f.pos + min size (f.len - f.pos) },
          [.copy file (f.buffer + f.pos) (min size (f.len - f.pos))])
      ∧ (ofNetRead file size f).2.1.Valid := by
  have hpos := h.pos_le
  have hlen := h.len_lt
  have hend := h.end_lt
  have hav : u32 (sub64 f.len f.pos) = f.len - f.pos := by
    rw [sub64_of_le hpos (by omega), u32_of_lt (by omega)]
  have hcount : (if size > f.len - f.pos then f.len - f.pos else size)
      = min size (f.len - f.pos) := by
    split <;> omega
  have heq : ofNetRead file size f
      = (min size (f.len - f.pos), { f with pos := f.pos + min size (f.len - f.pos) },
        [.copy file (f.buffer + f.pos) (min size (f.len - f.pos))]) := by
    simp only [ofNetRead, hav, hcount]
    rw [u64_of_lt (by omega), u32_of_lt (by omega)]
  refine ⟨heq, ?_⟩
  rw [heq]
  exact ⟨by show f.pos + min size (f.len - f.pos) ≤ f.len; omega, hlen, hend⟩

/-! ## §5 Two runs -/

/-- A firmware that gives any free address and loads 5 bytes. -/
def sampleFirmware : Firmware where
  promOpen := true
  claim := fun addr _ => some addr
  loadmethod := 5

/-- A file is opened and closed, with nothing claimed before. -/
theorem download_released_early :
    Lawful ⟨[], []⟩ [.open 1 sampleFirmware, .close 1]
      ∧ trace ⟨[], []⟩ [.open 1 sampleFirmware, .close 1]
        = [.claim ⟨0x10000000, loadBufferSize⟩, .release ⟨0x10000000, loadBufferSize⟩,
          .opened 1 ⟨0x10000000, loadBufferSize⟩ 5, .close 1,
          .release ⟨0x10000000, loadBufferSize⟩]
      ∧ ¬ Obeys [] (trace ⟨[], []⟩ [.open 1 sampleFirmware, .close 1]) := by
  have htrace : trace ⟨[], []⟩ [.open 1 sampleFirmware, .close 1]
      = [.claim ⟨0x10000000, loadBufferSize⟩, .release ⟨0x10000000, loadBufferSize⟩,
        .opened 1 ⟨0x10000000, loadBufferSize⟩ 5, .close 1,
        .release ⟨0x10000000, loadBufferSize⟩] := by decide
  refine ⟨⟨⟨rfl, ?_⟩, rfl, trivial⟩, htrace, ?_⟩
  · intro addr size found _ r hr
    exact absurd hr List.not_mem_nil
  · rw [htrace]
    rintro ⟨m, hm, -⟩
    have hnone : Monitor.run ⟨[], [], []⟩ [.claim ⟨0x10000000, loadBufferSize⟩,
        .release ⟨0x10000000, loadBufferSize⟩, .opened 1 ⟨0x10000000, loadBufferSize⟩ 5,
        .close 1, .release ⟨0x10000000, loadBufferSize⟩] = none := by
      simp [Monitor.run, Monitor.step, promRelease]
    rw [hnone] at hm
    cases hm

/-- The download fails; meanwhile the kernel's memory is claimed. -/
theorem failedDownload_obeys :
    Obeys [] (trace ⟨[], []⟩
      [.open 1 ⟨true, fun addr _ => some addr, -1⟩, .claimOther ⟨0, 0x100000⟩]) :=
  (bufferLife_iff [.open 1 ⟨true, fun addr _ => some addr, -1⟩, .claimOther ⟨0, 0x100000⟩] []
    ⟨⟨rfl, fun _ _ _ _ r hr => absurd hr List.not_mem_nil⟩,
      show (⟨0, 0x100000⟩ : Region) ∉ _ by decide, trivial⟩).mpr (by decide)

end LiloBoot.OfNet
