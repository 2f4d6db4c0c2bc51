import NetworkSystemProgramming.StepSystems
import NetworkSystemProgramming.ByteBuffers
import NetworkSystemProgramming.SharedMemory.BinarySems

/-!
# The shared-memory writer and reader

`svshm_xfr_writer.c` and `svshm_xfr_reader.c` from the point where both have
attached the segment: one step for every statement that touches the semaphores,
the segment, a counter or a standard stream. The size of `buf` is a parameter,
as `BUF_SIZE` may be overridden by the build. The histories `blocksRead` and
`blocksWritten` record the data of the successful `read` and `write` calls.
-/

namespace SharedMemoryTransfer

open ByteBuffers BinarySems StepSystems

def WRITE_SEM : Nat := 0
def READ_SEM : Nat := 1

/-- `struct shmseg`. -/
structure Shmseg where
  cnt : Int
  buf : List Byte

inductive WriterPc where
  | reserve
  | read
  | store (numRead : Int)
  | checkError
  | release
  | testEof
  | advance
  | lastReserve
  | removeSet
  | unmap
  | unlink
  | finished
  | failed
  deriving DecidableEq

inductive ReaderPc where
  | reserve
  | testEof
  | addBytes
  | write
  | release
  | advance
  | unmap
  | lastRelease
  | finished
  | failed
  deriving DecidableEq

structure Writer where
  pc : WriterPc
  bytes : Int
  xfrs : Int

structure Reader where
  pc : ReaderPc
  bytes : Int
  xfrs : Int

structure State where
  semid : Option SemSet
  shmp : Shmseg
  linked : Bool
  /-- What the coming `read` calls on standard input return before end-of-file. -/
  stdin : List (List Byte)
  writer : Writer
  reader : Reader
  blocksRead : List (List Byte)
  blocksWritten : List (List Byte)
  /-- Whether a `read` on standard input has returned 0. -/
  eofSeen : Bool

/-- The bytes the reader has put on standard output. -/
def State.stdout (s : State) : List Byte := s.blocksWritten.flatten

/-- The bytes the writer has taken from standard input. -/
def State.consumed (s : State) : List Byte := s.blocksRead.flatten

def State.writerAt (s : State) (pc : WriterPc) : State := { s with writer := { s.writer with pc } }

def State.readerAt (s : State) (pc : ReaderPc) : State := { s with reader := { s.reader with pc } }

/-- One statement of the writer; `none` when it waits or has ended. -/
def writerStep (s : State) : Option State :=
  match s.writer.pc with
  | .reserve =>
    (reserveSem s.semid WRITE_SEM).andThen
      (fun set => { s with semid := some set }.writerAt .read) (s.writerAt .failed)
  | .read =>
    match s.stdin with
    | [] => some ({ s with eofSeen := true }.writerAt (.store 0))
    | block :: rest =>
      some ({ s with
        stdin := rest
        blocksRead := s.blocksRead ++ [block]
        shmp := { s.shmp with buf := overwrite s.shmp.buf block } }.writerAt
          (.store block.length))
  | .store numRead =>
    some ({ s with shmp := { s.shmp with cnt := numRead } }.writerAt .checkError)
  | .checkError => some (s.writerAt (if s.shmp.cnt = -1 then .failed else .release))
  | .release =>
    (releaseSem s.semid READ_SEM).andThen
      (fun set => { s with semid := some set }.writerAt .testEof) (s.writerAt .failed)
  | .testEof => some (s.writerAt (if s.shmp.cnt = 0 then .lastReserve else .advance))
  | .advance =>
    some { s with writer :=
      { pc := .reserve, xfrs := s.writer.xfrs + 1, bytes := s.writer.bytes + s.shmp.cnt } }
  | .lastReserve =>
    (reserveSem s.semid WRITE_SEM).andThen
      (fun set => { s with semid := some set }.writerAt .removeSet) (s.writerAt .failed)
  | .removeSet => some ({ s with semid := none }.writerAt .unmap)
  | .unmap => some (s.writerAt .unlink)
  | .unlink => some ({ s with linked := false }.writerAt .finished)
  | .finished => none
  | .failed => none

/-- One statement of the reader; `none` when it waits or has ended. -/
def readerStep (s : State) : Option State :=
  match s.reader.pc with
  | .reserve =>
    (reserveSem s.semid READ_SEM).andThen
      (fun set => { s with semid := some set }.readerAt .testEof) (s.readerAt .failed)
  | .testEof => some (s.readerAt (if s.shmp.cnt = 0 then .unmap else .addBytes))
  | .addBytes =>
    some { s with reader :=
      { s.reader with pc := .write, bytes := s.reader.bytes + s.shmp.cnt } }
  | .write =>
    some ({ s with
      blocksWritten := s.blocksWritten ++ [s.shmp.buf.take s.shmp.cnt.toNat] }.readerAt .release)
  | .release =>
    (releaseSem s.semid WRITE_SEM).andThen
      (fun set => { s with semid := some set }.readerAt .advance) (s.readerAt .failed)
  | .advance => some { s with reader := { s.reader with pc := .reserve, xfrs := s.reader.xfrs + 1 } }
  | .unmap => some (s.readerAt .lastRelease)
  | .lastRelease =>
    (releaseSem s.semid WRITE_SEM).andThen
      (fun set => { s with semid := some set }.readerAt .finished) (s.readerAt .failed)
  | .finished => none
  | .failed => none

inductive Party where
  | writer
  | reader
  deriving DecidableEq

/-- The set as the writer leaves it before its loop. -/
def initialSems : SemSet :=
  initSemInUse (initSemAvailable ⟨fun _ => 0⟩ WRITE_SEM) READ_SEM

/-- Both loops at their start, the segment with any content of the right size. -/
def initial (buf : List Byte) (cnt : Int) (input : List (List Byte)) : State where
  semid := some initialSems
  shmp := ⟨cnt, buf⟩
  linked := true
  stdin := input
  writer := ⟨.reserve, 0, 0⟩
  reader := ⟨.reserve, 0, 0⟩
  blocksRead := []
  blocksWritten := []
  eofSeen := false

/-- Whose turn it is to run. -/
def step : Party → State → Option State
  | .writer => writerStep
  | .reader => readerStep

/-- Every interleaving of the two programs on one input, cut into the blocks that
the `read` calls return. -/
def transfer (BUF_SIZE : Nat) (input : List (List Byte)) : StepSystem State Party :=
  .ofNext (fun s => ∃ buf cnt, buf.length = BUF_SIZE ∧ s = initial buf cnt input) step

/-- A splitting of standard input into reads of 1..BUF_SIZE bytes. -/
def Splitting (BUF_SIZE : Nat) (input : List (List Byte)) : Prop :=
  ∀ block ∈ input, 0 < block.length ∧ block.length ≤ BUF_SIZE

/-- Between a completed `reserveSem` and the next `releaseSem`. -/
def WriterPc.holding : WriterPc → Bool
  | .read | .store _ | .checkError | .release => true
  | _ => false

def ReaderPc.holding : ReaderPc → Bool
  | .testEof | .addBytes | .write | .release | .unmap | .lastRelease => true
  | _ => false

end SharedMemoryTransfer
