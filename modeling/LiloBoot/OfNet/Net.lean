/-
LiloBoot.OfNet.Net — files loaded over the network (`second/fs_of.c`).

`of_net_open` downloads the whole file into a buffer claimed from the
firmware, reads are copies out of it, and `of_close` releases it. Every
function returns, beside its result, what it asked of the firmware and what
it copied, as a list of events. `open_file` clears the file before it calls
`of_net_open`, so the buffer is `NULL` then.
-/
import LiloBoot.Prom.Memory

namespace LiloBoot.OfNet

/-- `LOAD_BUFFER_SIZE`. -/
def loadBufferSize : Nat := 64 * 1024 * 1024

def fileErrOk : Int := 0
def fileIoerr : Int := -4
def fileErrBadFsys : Int := -8

/-- The fields of `struct boot_file_t` the driver uses; a `buffer` of 0 is `NULL`. -/
structure BootFile where
  pos : Nat
  buffer : Nat
  len : Nat
  deriving DecidableEq

/-- What others can see of a call. -/
inductive Event where
  | claim (r : Region)
  | release (r : Region)
  | opened (file : Nat) (r : Region) (len : Nat)
  | copy (file : Nat) (src n : Nat)
  | close (file : Nat)
  | claimOther (r : Region)
  | releaseOther (r : Region)
  deriving DecidableEq

/-- The firmware during one open: whether `prom_open` gives a handle, its claims, and the
result of the `load` method. -/
structure Firmware where
  promOpen : Bool
  claim : Nat → Nat → Option Nat
  loadmethod : Int

/-- `of_net_download`: the result, the buffer if it is set, and the events. -/
def ofNetDownload (fw : Firmware) : Int × Option Nat × List Event :=
  match promClaimChunkTop fw.claim loadBufferSize with
  | none => (fileIoerr, none, [])
  | some p =>
    if fw.loadmethod > 0 then
      (fw.loadmethod, some p, [.claim ⟨p, loadBufferSize⟩, .release ⟨p, loadBufferSize⟩])
    else
      (fw.loadmethod, none, [.claim ⟨p, loadBufferSize⟩, .release ⟨p, loadBufferSize⟩])

/-- `of_net_open` on a cleared file. -/
def ofNetOpen (fw : Firmware) (file : Nat) : Int × BootFile × List Event :=
  if !fw.promOpen then (fileErrBadFsys, ⟨0, 0, 0⟩, [])
  else
    match ofNetDownload fw with
    | (ret, some p, events) =>
      (fileErrOk, ⟨0, p, ret.toNat⟩, events ++ [.opened file ⟨p, loadBufferSize⟩ ret.toNat])
    | (_, none, events) => (fileIoerr, ⟨0, 0, 0⟩, events)

/-- `of_net_read`: the count and the file after it. -/
def ofNetRead (file size : Nat) (f : BootFile) : Nat × BootFile × List Event :=
  let av := u32 (sub64 f.len f.pos)
  let count := if size > av then av else size
  (count, { f with pos := u64 (f.pos + count) }, [.copy file (u32 (f.buffer + f.pos)) count])

/-- `of_net_seek`. -/
def ofNetSeek (newpos : Nat) (f : BootFile) : BootFile :=
  { f with pos := if newpos > f.len then f.len else newpos }

/-- `of_close`. -/
def ofClose (file : Nat) (f : BootFile) : List Event :=
  if f.buffer ≠ 0 then [.close file, .release ⟨f.buffer, loadBufferSize⟩] else [.close file]

/-! ## The program around the driver -/

/-- The open files, by the address of their `struct boot_file_t`, and the memory. -/
structure State where
  files : List (Nat × BootFile)
  claimed : List Region

/-- What happens in a run. Other parts of the loader claim and release memory too. -/
inductive Op where
  | open (file : Nat) (fw : Firmware)
  | read (file size : Nat)
  | seek (file newpos : Nat)
  | close (file : Nat)
  | claimOther (r : Region)
  | releaseOther (r : Region)

/-- What an event does to the firmware's memory. -/
def Event.apply (claimed : List Region) : Event → List Region
  | .claim r => r :: claimed
  | .release r => promRelease r claimed
  | .claimOther r => r :: claimed
  | .releaseOther r => promRelease r claimed
  | _ => claimed

def fileOf (s : State) (file : Nat) : BootFile := (s.files.lookup file).getD ⟨0, 0, 0⟩

def setFile (s : State) (file : Nat) (f : BootFile) : List (Nat × BootFile) :=
  (file, f) :: s.files.filter (·.1 ≠ file)

/-- One step, with its events. -/
def step (s : State) : Op → State × List Event
  | .open file fw =>
    match ofNetOpen fw file with
    | (ret, f, events) =>
      (⟨if ret = fileErrOk then setFile s file f else s.files,
        events.foldl Event.apply s.claimed⟩, events)
  | .read file size =>
    match ofNetRead file size (fileOf s file) with
    | (_, f, events) => (⟨setFile s file f, events.foldl Event.apply s.claimed⟩, events)
  | .seek file newpos => (⟨setFile s file (ofNetSeek newpos (fileOf s file)), s.claimed⟩, [])
  | .close file =>
    let events := ofClose file (fileOf s file)
    (⟨s.files.filter (·.1 ≠ file), events.foldl Event.apply s.claimed⟩, events)
  | .claimOther r => (⟨s.files, r :: s.claimed⟩, [.claimOther r])
  | .releaseOther r => (⟨s.files, promRelease r s.claimed⟩, [.releaseOther r])

/-- What callers and firmware promise: only a file that is not open is opened, only an open
file is read, positioned or closed; claims are fresh; others release what is claimed. -/
def Op.Allowed (s : State) : Op → Prop
  | .open file fw => (s.files.lookup file).isNone ∧ FreshClaims fw.claim s.claimed
  | .read file _ => (s.files.lookup file).isSome
  | .seek file _ => (s.files.lookup file).isSome
  | .close file => (s.files.lookup file).isSome
  | .claimOther r => r ∉ s.claimed
  | .releaseOther r => r ∈ s.claimed

/-- The events of a run. -/
def trace (s : State) : List Op → List Event
  | [] => []
  | op :: ops => (step s op).2 ++ trace (step s op).1 ops

/-- A run of allowed steps. -/
def Lawful (s : State) : List Op → Prop
  | [] => True
  | op :: ops => op.Allowed s ∧ Lawful (step s op).1 ops

/-! ## The life of a buffer -/

/-- What the law is about: the claimed regions, the files between open and close with their
region and length, and the regions the driver has claimed for no open file. -/
structure Monitor where
  claimed : List Region
  held : List (Nat × Region × Nat)
  pending : List Region

/-- The law, event by event; `none` when it is broken. The driver releases only regions that
are claimed and hold no open file; a file that is opened has a claimed region of its own; a
copy comes from the first `len` bytes of the region of its file. -/
def Monitor.step (m : Monitor) : Event → Option Monitor
  | .claim r => some { m with claimed := r :: m.claimed, pending := r :: m.pending }
  | .release r =>
    if r ∈ m.claimed ∧ r ∈ m.pending then
      some { m with claimed := promRelease r m.claimed, pending := m.pending.erase r }
    else none
  | .opened file r len =>
    if r ∈ m.claimed ∧ r ∈ m.pending then
      some { m with held := (file, r, len) :: m.held, pending := m.pending.erase r }
    else none
  | .copy file src n =>
    if ∃ h ∈ m.held, h.1 = file ∧ h.2.1.base ≤ src
        ∧ src + n ≤ h.2.1.base + min h.2.2 h.2.1.size then some m
    else none
  | .close file =>
    some { m with
      held := m.held.filter (·.1 ≠ file)
      pending := (m.held.filter (·.1 = file)).map (·.2.1) ++ m.pending }
  | .claimOther r => some { m with claimed := r :: m.claimed }
  | .releaseOther r =>
    if r ∈ m.claimed ∧ r ∉ m.pending ∧ ∀ h ∈ m.held, h.2.1 ≠ r then
      some { m with claimed := promRelease r m.claimed }
    else none

def Monitor.run (m : Monitor) : List Event → Option Monitor
  | [] => some m
  | e :: events => (m.step e).bind (Monitor.run · events)

/-- A trace from the memory `claimed` obeys the law, and at its end every region the driver has
claimed is released or holds an open file. -/
def Obeys (claimed : List Region) (events : List Event) : Prop :=
  ∃ m, Monitor.run ⟨claimed, [], []⟩ events = some m ∧ m.pending = []

end LiloBoot.OfNet
