import Mathlib.Algebra.Ring.Nat
import WhuOS.Lib.Run
import WhuOS.Lib.Update

/-!
# WhuOS.Dev.Virtio

The disk driver, `kernel/dev/virtio.c`: descriptors, the avail ring, the used ring and the table of the
requests in flight, under `vdisk_lock`, with the device beside it.

`buf_read` and `buf_write` call `virtio_disk_rw(b, write)` with the sleeplock of `b`, so there is one call
for a buffer at a time. What such a call does under `vdisk_lock` is one step: an attempt to get three
descriptors and, with them, to publish the request; and each look at `b->disk`. `virtio_disk_intr` keeps
the lock for its whole loop, which goes round by round. The device needs no lock: it fetches what was
published, in order, and completes what it has fetched, in any order, with any status.

The addresses and lengths of the descriptors, which only the device reads, are left out.

`B` is the type of the buffers.
-/

namespace WhuOS
namespace Dev

open Lib

abbrev NUM : Nat := 8
abbrev VRING_DESC_F_NEXT : Nat := 1
abbrev VRING_DESC_F_WRITE : Nat := 2

structure VRingDesc where
  flags : Nat
  next : Nat
  deriving DecidableEq

/-- `disk.info[i]`. -/
structure Info (B : Type) where
  b : Option B
  status : Nat

/-- An entry of a ring: the head of a chain, and as a history variable the number of the request. -/
structure Elem where
  id : Nat
  req : Nat
  deriving DecidableEq

/-- Where the call of `virtio_disk_rw` for a buffer stands. -/
inductive Call where
  | idle
  /-- In the loop around `alloc3_desc`. -/
  | alloc (write : Bool)
  /-- In flight with these descriptors, as the request with this number. -/
  | wait (idx : List Nat) (req : Nat)
  deriving DecidableEq

inductive Panic where
  /-- `free_desc`. -/
  | desc
  /-- The device has reported an error. -/
  | status
  /-- `disk.info[id].b` is `NULL`. -/
  | null
  deriving DecidableEq

structure State (B : Type) where
  free : Nat → Bool
  desc : Nat → VRingDesc
  info : Nat → Info B
  /-- `avail[2...]`. -/
  avail : Nat → Elem
  /-- `avail[1]`. -/
  availIdx : Nat
  elems : Nat → Elem
  /-- `used->id`. -/
  usedId : Nat
  usedIdx : Nat
  /-- `b->disk`. -/
  flag : B → Bool
  call : B → Call
  /-- `virtio_disk_intr` has `vdisk_lock`. -/
  intr : Bool
  panicked : Option Panic
  /-- How far the device has looked in `avail[2...]`. -/
  fetched : Nat
  /-- What it has fetched and not completed. -/
  out : List Elem
  /-- History variables: the number of requests; the last one for a buffer; whether the device has
  completed a request; and how often its buffer's flag was cleared. -/
  count : Nat
  cur : B → Option Nat
  done : Nat → Bool
  clears : Nat → Nat

variable {B : Type} [DecidableEq B]

/-! ## Descriptors -/

def allocDesc (s : State B) : Option (Nat × State B) :=
  ((List.range NUM).find? s.free).map fun i => (i, { s with free := upd s.free i false })

/-- `free_desc`; `none` is a panic. -/
def freeDesc (s : State B) (i : Nat) : Option (State B) :=
  if NUM ≤ i then none
  else if s.free i then none
  else some { s with free := upd s.free i true }

/-- `free_chain`. A descriptor that is freed twice panics, so there are at most `NUM` rounds. -/
def freeChain : Nat → State B → Nat → Option (State B)
  | 0, _, _ => none
  | fuel + 1, s, i =>
    match freeDesc s i with
    | none => none
    | some s =>
      if (s.desc i).flags &&& VRING_DESC_F_NEXT ≠ 0 then freeChain fuel s (s.desc i).next else some s

/-- The loop of `alloc3_desc`, with what it has so far. -/
def allocLoop : Nat → List Nat → State B → Option (Option (List Nat) × State B)
  | 0, idx, s => some (some idx, s)
  | n + 1, idx, s =>
    match allocDesc s with
    | some (i, s) => allocLoop n (idx ++ [i]) s
    | none => (idx.foldlM freeDesc s).map fun s => (none, s)

def alloc3Desc (s : State B) : Option (Option (List Nat) × State B) := allocLoop 3 [] s

/-! ## `virtio_disk_rw` -/

/-- Formats the three descriptors. -/
def format (desc : Nat → VRingDesc) (write : Bool) (i0 i1 i2 : Nat) : Nat → VRingDesc :=
  upd (upd (upd desc i0 ⟨VRING_DESC_F_NEXT, i1⟩)
    i1 ⟨(if write then 0 else VRING_DESC_F_WRITE) ||| VRING_DESC_F_NEXT, i2⟩)
    i2 ⟨VRING_DESC_F_WRITE, 0⟩

/-- Records and publishes the request. -/
def publish (s : State B) (b : B) (write : Bool) (i0 i1 i2 : Nat) : State B :=
  { s with
    desc := format s.desc write i0 i1 i2
    info := upd s.info i0 ⟨some b, 0⟩
    flag := upd s.flag b true
    avail := upd s.avail (s.availIdx % NUM) ⟨i0, s.count⟩
    availIdx := (s.availIdx + 1) % 2 ^ 16
    call := upd s.call b (.wait [i0, i1, i2] s.count)
    count := s.count + 1
    cur := upd s.cur b (some s.count) }

/-- A round of the loop around `alloc3_desc`. -/
def submit (s : State B) (b : B) (write : Bool) : State B :=
  match alloc3Desc s with
  | none => { s with panicked := some .desc }
  | some (some [i0, i1, i2], s) => publish s b write i0 i1 i2
  | some (_, s) => s

/-- A look at `b->disk`, and the end of the call when it is cleared. -/
def poll (s : State B) (b : B) (i0 : Nat) : State B :=
  if s.flag b then s
  else
    match freeChain (NUM + 1) { s with info := upd s.info i0 { s.info i0 with b := none } } i0 with
    | none => { s with panicked := some .desc }
    | some s => { s with call := upd s.call b .idle }

/-! ## `virtio_disk_intr` -/

/-- The flag of `b` is cleared: a clear of the last request for it. -/
def clearFlag (s : State B) (b : B) : State B :=
  { s with
    flag := upd s.flag b false
    clears :=
      match s.cur b with
      | none => s.clears
      | some r => upd s.clears r (s.clears r + 1) }

/-- A round of the loop, or its end. -/
def intrRound (s : State B) : State B :=
  if s.usedIdx % NUM ≠ s.usedId % NUM then
    let id := (s.elems s.usedIdx).id
    if (s.info id).status ≠ 0 then { s with panicked := some .status }
    else
      match (s.info id).b with
      | none => { s with panicked := some .null }
      | some b => { clearFlag s b with usedIdx := (s.usedIdx + 1) % NUM }
  else { s with intr := false }

/-! ## Steps -/

inductive Act (B : Type) where
  /-- `virtio_disk_rw(b, write)` is called. -/
  | rw (b : B) (write : Bool)
  /-- The next round of that call. -/
  | go (b : B)
  /-- `virtio_disk_intr` gets the lock. -/
  | intr
  | round
  /-- The device fetches the next published request. -/
  | fetch
  /-- The device completes one of those it has fetched. -/
  | complete (k status : Nat)
  deriving DecidableEq

def step (s : State B) : Act B → Option (State B)
  | .rw b write =>
    if s.panicked = none ∧ s.call b = .idle then some { s with call := upd s.call b (.alloc write) }
    else none
  | .go b =>
    if s.panicked = none ∧ s.intr = false then
      match s.call b with
      | .idle => none
      | .alloc write => some (submit s b write)
      | .wait idx _ => idx.head?.map (poll s b)
    else none
  | .intr => if s.panicked = none ∧ s.intr = false then some { s with intr := true } else none
  | .round => if s.panicked = none ∧ s.intr then some (intrRound s) else none
  | .fetch =>
    if s.fetched ≠ s.availIdx then
      some { s with
        out := s.out ++ [s.avail (s.fetched % NUM)]
        fetched := (s.fetched + 1) % 2 ^ 16 }
    else none
  | .complete k status =>
    match s.out[k]? with
    | none => none
    | some e =>
      some { s with
        out := s.out.eraseIdx k
        elems := upd s.elems (s.usedId % NUM) e
        usedId := (s.usedId + 1) % 2 ^ 16
        info := upd s.info e.id { s.info e.id with status := status }
        done := upd s.done e.req true }

def boot : State B where
  free := fun _ => true
  desc := fun _ => ⟨0, 0⟩
  info := fun _ => ⟨none, 0⟩
  avail := fun _ => ⟨0, 0⟩
  availIdx := 0
  elems := fun _ => ⟨0, 0⟩
  usedId := 0
  usedIdx := 0
  flag := fun _ => false
  call := fun _ => .idle
  intr := false
  panicked := none
  fetched := 0
  out := []
  count := 0
  cur := fun _ => none
  done := fun _ => false
  clears := fun _ => 0

end Dev
end WhuOS
