import NetworkSystemProgramming.StepSystems
import NetworkSystemProgramming.ByteMemory
import NetworkSystemProgramming.Texts

/-!
# Messages through a shared ring buffer

`program.c` and `program_enhanced.c`: a producer and the consumers it forks share a ring
of slots of 80 bytes; the last one also holds the counter of received messages and, in
the enhanced version, the lock. A signal tells a consumer the number of a new message. One
statement is one step, and so is every byte that is copied to or from the ring. A pending
signal is one slot: it is delivered between any two statements. `fork`, `mmap` and
`sigqueue` do not fail here; the shared memory is created empty.
-/

namespace RingBuffer

open ByteBuffers ByteMemory StepSystems StepSystem Texts

inductive Version where
  | plain
  | enhanced
  deriving DecidableEq

/-- The version of the program and its command line. A loop up to a negative number is one
up to 0. -/
structure Setup where
  version : Version
  dataNum : Nat
  consumer : Nat
  buf : Nat
  dataNum_int : dataNum < 2 ^ 31
  buf_pos : 1 ≤ buf
  buffer_int : 80 * buf < 2 ^ 31

/-- The offset of `*p`, the number of messages counted by all consumers. -/
def Setup.counterAddr (setup : Setup) : Nat := 80 * (setup.buf - 1) + 40

/-- The offset of `*p1`, the lock of the enhanced version. -/
def Setup.lockAddr (setup : Setup) : Nat := 80 * (setup.buf - 1) + 44

/-- "This is message ". -/
def messageText : List Byte :=
  [84, 104, 105, 115, 32, 105, 115, 32, 109, 101, 115, 115, 97, 103, 101, 32]

/-- `seq_msg`. -/
def message (n : Nat) : List Byte := messageText ++ decimal n

/-! ## Comparing the sequence number -/

/-- `atoi` of a text whose number is an `int`. -/
def atoi (s : List Byte) : Int := leadingInteger s

/-- The tokens that `strtok(_, " \\t")` returns. -/
def tokens (s : List Byte) : List (List Byte) :=
  (s.splitOnP fun c => c = 32 || c = 9).filter (· ≠ [])

/-- The loop of `seqcmp` from the `i`-th token on; when it ends without a number, no value
is returned. -/
def seqcmpLoop (version : Version) : Nat → List (List Byte) → Option Int
  | _, [] => none
  | i, key :: rest =>
    if i > 4 then some (if version = .plain then 0 else -1)
    else if atoi key ≠ 0 then some (atoi key)
    else seqcmpLoop version (i + 1) rest

def seqcmp (version : Version) (str : List Byte) : Option Int := seqcmpLoop version 1 (tokens str)

/-- The test of `recv_seq` against `seqcmp`; it may come out either way when that returns
no value. -/
def sameSeq (version : Version) (recvSeq : Nat) (split : List Byte) (outcome : Bool) : Bool :=
  match seqcmp version split with
  | some seq => (recvSeq : Int) = seq
  | none => outcome

/-! ## The processes -/

inductive ProducerPc where
  | clearLock
  | fork (i : Nat)
  | head (n : Nat)
  | lock (n : Nat)
  | copy (n j : Nat)
  | unlock (n : Nat)
  | send (n i1 : Nat)
  | sleep (n : Nat)
  | wait (i1 : Nat)
  | finished
  deriving DecidableEq

/-- The history `written` has the messages that are copied whole, with their slots. -/
structure Producer where
  pc : ProducerPc
  ptr : Nat
  written : List (Nat × List Byte)

inductive ConsumerPc where
  | notForked
  | install
  | firstPause
  | firstPaused
  | shmOpen
  | test
  | lock
  | copy
  | unlock
  | compare
  | add (seq : Nat)
  | advance
  | testEnd
  | pause
  | paused
  | exited
  | failed
  | killed
  deriving DecidableEq

/-- The histories are the values of `recv_seq` at the comparisons and at the additions to
the counter, and the strings copied, with the slots they come from. -/
structure Consumer where
  pc : ConsumerPc
  recvSeq : Nat
  pending : Option Nat
  ptr : Nat
  b : Nat
  split : List Byte
  compared : List Nat
  added : List Nat
  copied : List (Nat × List Byte)

structure Shared where
  mem : Memory
  /-- Whether "/SHM_DEMO" is linked. -/
  linked : Bool

structure State where
  producer : Producer
  shared : Shared
  consumers : Nat → Consumer

/-- A process that has ended stays a child to wait for. -/
def ConsumerPc.ended : ConsumerPc → Bool
  | .exited | .failed | .killed => true
  | _ => false

/-- Blocked in `pause`. -/
def ConsumerPc.waiting : ConsumerPc → Bool
  | .firstPaused | .paused => true
  | _ => false

/-- `sigqueue`: dropped when a signal is pending or the process has ended. -/
def Consumer.sigqueue (c : Consumer) (n : Nat) : Consumer :=
  if c.pc.ended then c else { c with pending := some (c.pending.getD n) }

/-- Delivery of the pending signal: `capture_signal` runs once it is installed, and the
process is killed before that. -/
def Consumer.deliver (c : Consumer) : Option Consumer :=
  match c.pending with
  | none => none
  | some n =>
    let handled := { c with recvSeq := n, pending := none }
    match c.pc with
    | .notForked | .exited | .failed | .killed => none
    | .install => some { c with pc := .killed, pending := none }
    | .firstPaused => some { handled with pc := .shmOpen }
    | .paused => some { handled with pc := .test }
    | _ => some handled

/-- The statement that enters the copying of a message, in either version. -/
def Version.enter {A : Type} (version : Version) (locking copying : A) : A :=
  match version with
  | .plain => copying
  | .enhanced => locking

/-- One statement of a consumer. `outcome` decides a comparison without a value. -/
def consumerStep (setup : Setup) (outcome : Bool) (c : Consumer) (shared : Shared) :
    Option (Consumer × Shared) :=
  match c.pc with
  | .notForked => none
  | .install => some ({ c with pc := .firstPause }, shared)
  | .firstPause => some ({ c with pc := .firstPaused }, shared)
  | .firstPaused => none
  | .shmOpen =>
    some ({ c with pc := if shared.linked then .test else .failed, ptr := 0, b := 0 }, shared)
  | .test =>
    if c.b < setup.dataNum then
      some ({ c with pc := setup.version.enter .lock .copy, split := [] }, shared)
    else none
  | .lock =>
    if load32 shared.mem setup.lockAddr = 0 then
      some ({ c with pc := .copy }, { shared with mem := store32 shared.mem setup.lockAddr 1 })
    else some (c, shared)
  | .copy =>
    let byte := shared.mem (c.ptr + c.split.length)
    if byte = 0 then
      some ({ c with
        pc := setup.version.enter .unlock .compare
        split := c.split ++ [newline]
        copied := c.copied ++ [(c.ptr / 80, c.split)] }, shared)
    else some ({ c with split := c.split ++ [byte] }, shared)
  | .unlock =>
    some ({ c with pc := .compare }, { shared with mem := store32 shared.mem setup.lockAddr 0 })
  | .compare =>
    some ({ c with
      pc := if sameSeq setup.version c.recvSeq c.split outcome then .add c.recvSeq else .advance
      compared := c.compared ++ [c.recvSeq] }, shared)
  | .add seq =>
    some ({ c with pc := .advance, added := c.added ++ [seq] },
      { shared with
        mem := store32 shared.mem setup.counterAddr (load32 shared.mem setup.counterAddr + 1) })
  | .advance =>
    some ({ c with
      pc := .testEnd
      ptr := if c.b % setup.buf = setup.buf - 1 then 0 else c.ptr + 80
      b := c.b + 1 }, shared)
  | .testEnd =>
    if c.b ≥ setup.dataNum then some ({ c with pc := .exited }, { shared with linked := false })
    else some ({ c with pc := .pause }, shared)
  | .pause => some ({ c with pc := .paused }, shared)
  | .paused => none
  | .exited => none
  | .failed => none
  | .killed => none

/-- One statement of the producer. -/
def producerStep (setup : Setup) (s : State) : Option State :=
  let at_ (pc : ProducerPc) : State := { s with producer := { s.producer with pc } }
  match s.producer.pc with
  | .clearLock =>
    some { at_ (.fork 0) with shared.mem := store32 s.shared.mem setup.lockAddr 0 }
  | .fork i =>
    if i < setup.consumer then
      some { at_ (.fork (i + 1)) with
        consumers := Function.update s.consumers i { s.consumers i with pc := .install } }
    else some (at_ (.head 0))
  | .head n =>
    if n < setup.dataNum then some (at_ (setup.version.enter (.lock n) (.copy n 0)))
    else some (at_ (.wait 0))
  | .lock n =>
    if load32 s.shared.mem setup.lockAddr = 0 then
      some { at_ (.copy n 0) with shared.mem := store32 s.shared.mem setup.lockAddr 1 }
    else some s
  | .copy n j =>
    let mem := store s.shared.mem (s.producer.ptr + j) ((message n).getD j 0)
    if j < (message n).length then some { at_ (.copy n (j + 1)) with shared.mem := mem }
    else
      some { s with
        producer := { s.producer with
          pc := setup.version.enter (.unlock n) (.send n 0)
          written := s.producer.written ++ [(s.producer.ptr / 80, message n)] }
        shared.mem := mem }
  | .unlock n =>
    some { at_ (.send n 0) with shared.mem := store32 s.shared.mem setup.lockAddr 0 }
  | .send n i1 =>
    if i1 < setup.consumer then
      some { at_ (.send n (i1 + 1)) with
        consumers := Function.update s.consumers i1 ((s.consumers i1).sigqueue n) }
    else some (at_ (.sleep n))
  | .sleep n =>
    some { s with producer := { s.producer with
      pc := .head (n + 1)
      ptr := if n % setup.buf = setup.buf - 1 then 0 else s.producer.ptr + 80 } }
  | .wait i1 =>
    if i1 < setup.consumer then
      if (s.consumers i1).pc.ended then some (at_ (.wait (i1 + 1))) else none
    else some { at_ .finished with shared.linked := false }
  | .finished => none

inductive Act where
  | producer
  | consumer (c : Nat) (outcome : Bool)
  | deliver (c : Nat)
  deriving DecidableEq

def next (setup : Setup) (act : Act) (s : State) : Option State :=
  match act with
  | .producer => producerStep setup s
  | .consumer c outcome =>
    (consumerStep setup outcome (s.consumers c) s.shared).map fun (client, shared) =>
      { s with consumers := Function.update s.consumers c client, shared }
  | .deliver c =>
    (s.consumers c).deliver.map fun client =>
      { s with consumers := Function.update s.consumers c client }

/-- A process image before its fork. -/
def Consumer.initial : Consumer := ⟨.notForked, 0, none, 0, 0, [], [], [], []⟩

/-- The shared memory is fresh. -/
def State.initial (setup : Setup) : State where
  producer := ⟨setup.version.enter .clearLock (.fork 0), 0, []⟩
  shared := ⟨fun _ => 0, true⟩
  consumers := fun _ => Consumer.initial

def ringBuffer (setup : Setup) : StepSystem State Act :=
  ofNext (· = State.initial setup) (next setup)

/-- Two messages for one consumer through a single slot. -/
def twoMessages (version : Version) : Setup where
  version := version
  dataNum := 2
  consumer := 1
  buf := 1
  dataNum_int := by decide
  buf_pos := by decide
  buffer_int := by decide

end RingBuffer
