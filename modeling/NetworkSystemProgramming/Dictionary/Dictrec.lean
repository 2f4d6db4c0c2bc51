import NetworkSystemProgramming.ByteBuffers

/-!
# Dictionary records

`dict.h`: the fixed-size record that `convert` writes and every version of
`lookup` fills in, and the three results of `lookup`.
-/

namespace Dictionary

open ByteBuffers

def WORD : Nat := 32
def TEXT : Nat := 480

def FOUND : Int := 0
def NOTFOUND : Int := 1
def UNAVAIL : Int := 2

structure Dictrec where
  word : Buffer WORD
  text : Buffer TEXT
  deriving DecidableEq

/-- A record as it lies in a file. -/
def Dictrec.bytes (dr : Dictrec) : List Byte := dr.word.bytes ++ dr.text.bytes

@[simp] theorem Dictrec.length_bytes (dr : Dictrec) : dr.bytes.length = WORD + TEXT := by
  rw [Dictrec.bytes, List.length_append, dr.word.size_eq, dr.text.size_eq]

/-- A file of records. -/
def outFile (records : List Dictrec) : List Byte := records.flatMap Dictrec.bytes

theorem length_outFile (records : List Dictrec) :
    (outFile records).length = (WORD + TEXT) * records.length := by
  induction records with
  | nil => rfl
  | cons r records ih =>
    rw [outFile, List.flatMap_cons, List.length_append, r.length_bytes, ← outFile, ih,
      List.length_cons, Nat.mul_succ, Nat.add_comm]

end Dictionary
