import NetworkSystemProgramming.ByteBuffers

/-!
# The event buffer of the directory watcher

`file_notify.c`. The kernel packs the events of one `read` back to back: a header of 16
bytes and the name, whose length the header gives. `main` clears the buffer behind every
read and walks it with the stride of the largest event.
-/

namespace FileNotify

open ByteBuffers

def NAME_MAX : Nat := 255

/-- `sizeof(struct inotify_event)`, which does not count the name. -/
def EVENT_SIZE : Nat := 16

def STRIDE : Nat := EVENT_SIZE + NAME_MAX + 1

def BUF_LEN : Nat := 10 * STRIDE

/-- An event as the kernel writes it; `len` is the length of `name`, with the NUL bytes
that end it. -/
structure Event where
  wd : Int32
  mask : UInt32
  cookie : UInt32
  name : List Byte
  terminated : name ≠ [] → 0 ∈ name

def u32Bytes (v : UInt32) : List Byte := leBytes 4 v.toNat

def Event.len (e : Event) : UInt32 := UInt32.ofNat e.name.length

/-- The members of the structure in order, before the name. -/
def Event.members (e : Event) : List UInt32 := [e.wd.toUInt32, e.mask, e.cookie, e.len]

def Event.header (e : Event) : List Byte := e.members.flatMap u32Bytes

def Event.bytes (e : Event) : List Byte := e.header ++ e.name

/-- The events of one `read`. -/
structure Batch where
  events : List Event
  fits : (events.flatMap Event.bytes).length ≤ BUF_LEN

def Batch.bytes (b : Batch) : List Byte := b.events.flatMap Event.bytes

/-- A field of the structure at `ptr`. -/
def u32At (buf : List Byte) (ptr : Nat) : UInt32 := UInt32.ofNat (leValue ((buf.drop ptr).take 4))

/-- The bits of `mask` in the order of the tests, with their texts; behind some of them the
directory tree is walked again to watch new files. -/
def maskTexts : List (UInt32 × String × Bool) :=
  [(0x1, "ACCESS ", false), (0x4, "ATTRIB ", false), (0x10, "CLOSE_NOWRITE ", false),
    (0x8, "CLOSE_WRITE ", false), (0x100, "CREATE \n", true), (0x200, "DELETE \n", true),
    (0x400, "DELETE_SELF ", false), (0x8000, "IGNORED ", false), (0x40000000, "ISDIR ", false),
    (0x2, "MODIFY ", false), (0x800, "MOVE_SELF ", false), (0x40, "MOVED_FROM \n", true),
    (0x80, "MOVED_TO \n", true), (0x20, "OPEN ", false), (0x4000, "Q_OVERFLOW ", false),
    (0x2000, "UNMOUNT ", false)]

def maskOutput (mask : UInt32) : List (String × Bool) :=
  (maskTexts.filter fun (bit, _) => mask &&& bit ≠ 0).map Prod.snd

/-- What is printed for an event. -/
structure Displayed where
  wd : Int32
  cookie : Option UInt32
  name : List Byte
  mask : List (String × Bool)
  deriving DecidableEq

def Displayed.of (wd : Int32) (mask cookie : UInt32) (name : List Byte) : Displayed where
  wd
  cookie := if cookie > 0 then some cookie else none
  name
  mask := maskOutput mask

/-- `displayAllEvent` on whatever lies at `ptr`. -/
def displayAllEvent (buf : List Byte) (ptr : Nat) : Option Displayed :=
  let wd := (u32At buf ptr).toInt32
  let mask := u32At buf (ptr + 4)
  let cookie := u32At buf (ptr + 8)
  let len := u32At buf (ptr + 12)
  if wd > 0 ∧ len > 0 then some (.of wd mask cookie (cstr (buf.drop (ptr + EVENT_SIZE)))) else none

/-- The pointers of the loop from `ptr` on. -/
def walk : Nat → Nat → List Nat
  | 0, _ => []
  | fuel + 1, ptr => if ptr < BUF_LEN then ptr :: walk fuel (ptr + STRIDE) else []

/-- The calls that print something, with the pointers they are made for. -/
def displays (buf : List Byte) (ptrs : List Nat) : List (Nat × Displayed) :=
  ptrs.filterMap fun ptr => (displayAllEvent buf ptr).map (ptr, ·)

/-- The loop of `main` over the blocks that `read` returns: what is printed for each. -/
def readLoop (buf : List Byte) : List (List Byte) → List (List (Nat × Displayed))
  | [] => []
  | block :: rest =>
    displays (overwrite buf block) (walk (BUF_LEN + 1) 0) ::
      readLoop (List.replicate BUF_LEN 0) rest

/-- `buf` behind one `read`. -/
def Batch.buffer (b : Batch) : List Byte := overwrite (List.replicate BUF_LEN 0) b.bytes

/-- The buffer is clear before every `read`. -/
theorem readLoop_batches (batches : List Batch) :
    readLoop (List.replicate BUF_LEN 0) (batches.map Batch.bytes) =
      batches.map fun b => displays b.buffer (walk (BUF_LEN + 1) 0) := by
  induction batches with
  | nil => rfl
  | cons b batches ih => rw [List.map_cons, readLoop, ih, List.map_cons, Batch.buffer]

theorem walk_all : walk (BUF_LEN + 1) 0 = (List.range 10).map (· * STRIDE) := by
  decide

end FileNotify
