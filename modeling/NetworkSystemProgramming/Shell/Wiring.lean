import Mathlib.Data.List.Nodup
import NetworkSystemProgramming.Shell.Copies
import NetworkSystemProgramming.Shell.Volume

/-!
# The wiring of a pipeline

When no call fails and the outputs fit in the pipes, every stage is exec'd once, each in
a process of its own and between the pipes of its neighbours. Its words are those of the
stage as far as they fit the memory that they are copied to.
-/

namespace Shell

open DescriptorTables StepSystems StepSystem

variable {E : Type} {heap : Heap} {w : World E} {stages : List (List Word)} {s : State E}

/-- The successful calls of `execvp` so far are those of the first stages. -/
structure Wired (heap : Heap) (w : World E) (stages : List (List Word)) (execs : List (Exec E)) :
    Prop where
  atMost : execs.length ≤ stages.length
  processes : (execs.map Exec.pid).Nodup
  /-- The words that `execvp` finds, whatever stands behind their copies. -/
  words : ∀ (k : Nat) (e : Exec E) (found : List Word), execs[k]? = some e →
    heap.ReadsAll (leadingWords e.argv) found → stages[k]? = some found
  /-- The stdout of a stage and the stdin of the next one are the ends of one pipe. When
  the reader is exec'd no process but the writer has a write end. -/
  joined : ∀ (k : Nat) (e e' : Exec E), execs[k]? = some e → execs[k + 1]? = some e' →
    ∃ pipe, lookup e.fds 1 = some (.write pipe) ∧ lookup e'.fds 0 = some (.read pipe) ∧
      ∀ pid, Holds (e'.tables pid) (.write pipe) → pid = e.pid
  first : ∀ e : Exec E, execs[0]? = some e → lookup e.fds 0 = (lookup w.entry 0).map .entry
  last : ∀ e : Exec E, execs[stages.length - 1]? = some e →
    lookup e.fds 1 = (lookup w.entry 1).map .entry

theorem Executed.wired {n : Nat} {execs : List (Exec E)} (executed : Executed w stages n execs)
    (nonempty : stages ≠ []) (bound : n ≤ stages.length)
    (clean : ∀ stage ∈ stages, ∀ s ∈ stage, 0 ∉ s)
    (fit : ∀ stage ∈ stages, ∀ s ∈ stage, heap.Fits s) : Wired heap w stages execs := by
  have length := executed.length
  have inside : ∀ {k e}, execs[k]? = some e → k < stages.length := by
    intro k e found
    have := (List.getElem?_eq_some_iff.mp found).1
    omega
  constructor
  · omega
  · rw [List.nodup_iff_getElem?_ne_getElem?]
    intro i j less short same
    rw [List.length_map] at short
    have shorter := Nat.lt_trans less short
    rw [List.getElem?_map, List.getElem?_map, List.getElem?_eq_getElem short,
      List.getElem?_eq_getElem shorter, Option.map_some, Option.map_some,
      Option.some.injEq] at same
    have early := (executed.stage i _ (List.getElem?_eq_getElem shorter)).pid
    have late := (executed.stage j _ (List.getElem?_eq_getElem short)).pid
    rw [same, late] at early
    rw [if_neg (show i + 1 ≠ stages.length by omega)] at early
    split at early <;> omega
  · intro k e found at_k reads
    have words := (executed.stage k e at_k).words
    have stage := List.mem_of_getElem? words
    rw [words, (heap.readsAll_only_iff (clean _ stage)).mpr (fit _ stage) found reads]
  · intro k e e' found found'
    have more := inside found'
    refine ⟨k, ?_, ?_, ?_⟩
    · rw [(executed.stage k e found).stdout, if_neg (by omega)]
    · rw [(executed.stage (k + 1) e' found').stdin, feed]
    · intro pid held
      exact absurd held ((executed.stage (k + 1) e' found').writers k pid rfl)
  · intro e found
    exact (executed.stage 0 e found).stdin
  · intro e found
    have positive := List.length_pos_iff.mpr nonempty
    rw [(executed.stage _ e found).stdout, if_pos (by omega)]

theorem Phase.executed (phase : Phase w stages True s) :
    ∃ n ≤ stages.length, Executed w stages n s.execs := by
  cases phase with
  | calling k fds stack level main table stackAt alone pid pipe executed =>
    exact ⟨k, by omega, executed trivial⟩
  | forking k f fds stack main table frame alone pid pipe empty executed =>
    have := frame.words.2.2.2
    exact ⟨k, by omega, executed trivial⟩
  | waiting k f parent child frame =>
    have := frame.words.2.2.2
    generalize s.procs (k + 1) = c at child
    cases child with
    | closeRead _ _ executed => exact ⟨k, by omega, executed trivial⟩
    | dupWrite _ _ executed => exact ⟨k, by omega, executed trivial⟩
    | closeWrite _ _ executed => exact ⟨k, by omega, executed trivial⟩
    | execLeft _ _ executed => exact ⟨k, by omega, executed trivial⟩
    | running _ _ _ executed => exact ⟨k + 1, by omega, executed trivial⟩
    | ended executed => exact ⟨k + 1, by omega, executed trivial⟩
  | waited k f fds stack main table frame alone pid pipe executed =>
    have := frame.words.2.2.2
    exact ⟨k + 1, by omega, executed trivial⟩
  | returned k f fds stack pfd last main table free frame alone pipe executed =>
    exact ⟨k + 1, by omega, executed trivial⟩
  | last k output fds stack pfd last main table free alone pipe executed =>
    exact ⟨stages.length, Nat.le_refl _, executed trivial⟩
  | fallen lax => exact absurd trivial lax
  | finished main alone pipe executed => exact ⟨stages.length, Nat.le_refl _, executed trivial⟩

/-- A run in which all stages are exec'd with their own words, whatever stands behind the
copies. -/
theorem Wired.fit (executed : Executed w stages stages.length s.execs)
    (wired : Wired heap w stages s.execs) (clean : ∀ stage ∈ stages, ∀ s ∈ stage, 0 ∉ s) :
    ∀ stage ∈ stages, ∀ s ∈ stage, heap.Fits s := by
  intro stage member
  obtain ⟨k, at_k⟩ := List.mem_iff_getElem?.mp member
  have short : k < s.execs.length := by
    rw [executed.length]
    exact (List.getElem?_eq_some_iff.mp at_k).1
  have exec := List.getElem?_eq_getElem short
  have words := (executed.stage k _ exec).words
  rw [at_k, Option.some.injEq] at words
  refine (heap.readsAll_only_iff (clean stage member)).mp fun found reads => ?_
  have own := wired.words k _ found exec (words ▸ reads)
  rw [at_k, Option.some.injEq] at own
  exact own.symm

/-- Every run without failures comes to the point where all stages have been exec'd. -/
theorem all_executed [DecidableEq E] (ok : Pipelined w stages)
    (fits : ∀ k, k + 1 < stages.length → w.output (k + 1) ≤ w.capacity) :
    Inevitable ((pipeAndExec w (pipeline stages)).restrict Succeeds)
      (fun s => Executed w stages stages.length s.execs) (State.initial w (pipeline stages)) := by
  apply (ends_or_waits ok).mono
  intro t run final
  have phase := strict_phase_of_reachable ok ((Reachable.initial rfl).run run)
  exact (phase.of_dead (final.resolve_right (phase.not_waits fits))).1

private def threeStages : List (List Word) := [["cat", "log"], ["sort", "-r"], ["head"]]

private def roomyPipes : World Nat where
  entry := [some 0, some 1, some 2, none, some 7]
  capacity := 4
  output _ := 3

/-- `/bin/echo` with a word of 24 bytes and another one, piped into `/bin/cat`. -/
private def longWord : List (List Word) :=
  [["/bin/echo", "aaaaaaaaaaaaaaaaaaaaaaaa", "b"], ["/bin/cat"]]

end Shell
