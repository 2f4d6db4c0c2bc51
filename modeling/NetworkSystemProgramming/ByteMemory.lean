import NetworkSystemProgramming.ByteBuffers

/-!
# Byte-addressed memory

A memory is a byte for every address. Numbers take four bytes, the least significant one
first. A store changes the addresses that it covers and no others.
-/

namespace ByteMemory

open ByteBuffers

abbrev Memory := Nat → Byte

/-- The bytes from `addr` on. -/
def bytesAt (mem : Memory) (addr len : Nat) : List Byte :=
  (List.range len).map fun i => mem (addr + i)

def store (mem : Memory) (addr : Nat) (c : Byte) : Memory := Function.update mem addr c

def load32 (mem : Memory) (addr : Nat) : Nat := leValue (bytesAt mem addr 4)

def store32 (mem : Memory) (addr v : Nat) : Memory := fun a =>
  if addr ≤ a ∧ a < addr + 4 then (leBytes 4 v).getD (a - addr) 0 else mem a

theorem bytesAt_congr {mem mem' : Memory} {addr len : Nat}
    (same : ∀ i < len, mem' (addr + i) = mem (addr + i)) :
    bytesAt mem' addr len = bytesAt mem addr len := by
  apply List.map_congr_left
  intro i member
  exact same i (List.mem_range.mp member)

@[simp] theorem store_same (mem : Memory) (addr : Nat) (c : Byte) : store mem addr c addr = c := by
  simp [store]

theorem store_other (mem : Memory) {addr a : Nat} (c : Byte) (ne : a ≠ addr) :
    store mem addr c a = mem a := by
  simp [store, ne]

theorem store32_other (mem : Memory) {addr a v : Nat} (outside : ¬ (addr ≤ a ∧ a < addr + 4)) :
    store32 mem addr v a = mem a := by
  rw [store32, if_neg outside]

/-- A byte outside a number does not change it. -/
theorem load32_store (mem : Memory) {addr a : Nat} (c : Byte)
    (outside : ¬ (addr ≤ a ∧ a < addr + 4)) :
    load32 (store mem a c) addr = load32 mem addr := by
  rw [load32, bytesAt_congr, load32]
  intro i less
  apply store_other
  omega

theorem load32_store32_same (mem : Memory) (addr v : Nat) :
    load32 (store32 mem addr v) addr = v % 2 ^ 32 := by
  have bytes : bytesAt (store32 mem addr v) addr 4 = leBytes 4 v := by
    simp [bytesAt, store32, List.range_succ, leBytes]
  have value := leValue_leBytes 4 v
  simpa [load32, bytes] using value

/-- Two numbers that do not overlap. -/
theorem load32_store32_other (mem : Memory) {addr other v : Nat}
    (apart : addr + 4 ≤ other ∨ other + 4 ≤ addr) :
    load32 (store32 mem addr v) other = load32 mem other := by
  rw [load32, bytesAt_congr, load32]
  intro i less
  apply store32_other
  omega

theorem load32_zero : load32 (fun _ => 0) = fun _ => 0 := by
  funext addr
  simp [load32, bytesAt, List.range_succ, leValue]

end ByteMemory
