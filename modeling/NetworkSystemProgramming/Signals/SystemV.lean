import Mathlib.Data.Finset.Basic
import Mathlib.Tactic.Common

/-!
# System V signal functions

`system_v.c`: `my_sigset`, `my_sighold`, `my_sigrelse` and `my_sigignore` over the POSIX
calls. All of them share one static structure `sa`, whose mask is handed to `sigaction` and
to `sigprocmask` alike.
-/

namespace SystemV

/-- A signal number that a program may use; 32 and 33 belong to the C library. -/
abbrev Signal := { n : Nat // 1 ≤ n ∧ n ≤ 64 ∧ n ≠ 32 ∧ n ≠ 33 }

def SIGINT : Signal := ⟨2, by decide⟩
def SIGKILL : Signal := ⟨9, by decide⟩
def SIGSTOP : Signal := ⟨19, by decide⟩

/-- The signals that the kernel neither blocks nor lets a process handle. -/
def unblockable : Finset Signal := {SIGKILL, SIGSTOP}

/-- The values of `sighandler_t`. -/
inductive Handler where
  | SIG_DFL
  | SIG_IGN
  | SIG_HOLD
  | function (address : Nat)
  deriving DecidableEq

inductive Flag where
  | SA_RESTART
  | SA_RESETHAND
  | SA_NODEFER
  deriving DecidableEq

structure Sigaction where
  handler : Handler
  mask : Finset Signal
  flags : List Flag

/-- The process mask, the dispositions and the static `sa`. -/
structure Process where
  mask : Finset Signal
  dispositions : Signal → Sigaction
  sa : Sigaction

/-- A fresh process: the static structure is zero, which is SIG_DFL without flags. -/
def Process.initial : Process where
  mask := ∅
  dispositions := fun _ => ⟨.SIG_DFL, ∅, []⟩
  sa := ⟨.SIG_DFL, ∅, []⟩

def sigaction (p : Process) (sig : Signal) (act : Sigaction) : Int × Process :=
  if sig ∈ unblockable then (-1, p)
  else (0, { p with dispositions := Function.update p.dispositions sig act })

/-- `sigprocmask` with SIG_BLOCK, which leaves the unblockable signals out. -/
def sigBlock (p : Process) (set : Finset Signal) : Int × Process :=
  (0, { p with mask := p.mask ∪ set \ unblockable })

/-- `sigprocmask` with SIG_UNBLOCK. -/
def sigUnblock (p : Process) (set : Finset Signal) : Int × Process :=
  (0, { p with mask := p.mask \ set })

/-- The result of `my_sigset`; two of its branches have no return statement. -/
inductive SigsetResult where
  | sigErr
  | sigHold
  | unspecified
  deriving DecidableEq

def mySigignore (p : Process) (sig : Signal) : Int × Process :=
  let sa := { p.sa with handler := .SIG_IGN }
  sigaction { p with sa } sig sa

def mySigset (p : Process) (sig : Signal) (handler : Handler) : SigsetResult × Process :=
  if handler = .SIG_HOLD then
    (.unspecified, { p with sa := { p.sa with mask := insert sig p.sa.mask } })
  else if handler = .SIG_IGN then (.unspecified, (mySigignore p sig).2)
  else
    let sa : Sigaction :=
      ⟨handler, ∅, if handler = .SIG_DFL then [.SA_RESETHAND, .SA_NODEFER] else [.SA_RESTART]⟩
    let (s, p) := sigaction { p with sa } sig sa
    (if s < 0 then .sigErr else .sigHold, p)

def mySighold (p : Process) (sig : Signal) : Int × Process :=
  let p := { p with sa := { p.sa with mask := insert sig p.sa.mask } }
  let (s, p) := sigBlock p p.sa.mask
  (if s < 0 then -1 else s, p)

def mySigrelse (p : Process) (sig : Signal) : Int × Process :=
  let p := { p with sa := { p.sa with mask := p.sa.mask.erase sig } }
  let (s, p) := sigUnblock p p.sa.mask
  (if s < 0 then -1 else s, p)

inductive Call where
  | sigset (sig : Signal) (handler : Handler)
  | sighold (sig : Signal)
  | sigrelse (sig : Signal)
  | sigignore (sig : Signal)
  deriving DecidableEq

def perform (p : Process) : Call → Process
  | .sigset sig handler => (mySigset p sig handler).2
  | .sighold sig => (mySighold p sig).2
  | .sigrelse sig => (mySigrelse p sig).2
  | .sigignore sig => (mySigignore p sig).2

/-- The process after a sequence of calls. -/
def after (calls : List Call) : Process := calls.foldl perform Process.initial

theorem after_append (before : List Call) (call : Call) :
    after (before ++ [call]) = perform (after before) call := by
  rw [after, List.foldl_append]
  rfl

/-- What a call is to do to the process mask. -/
def Effect (before after : Finset Signal) : Call → Prop
  | .sighold sig => after = insert sig before
  | .sigset sig .SIG_HOLD => after = insert sig before
  | .sigrelse sig => after = before.erase sig
  | .sigset sig _ | .sigignore sig => ∀ other, other ≠ sig → (other ∈ after ↔ other ∈ before)

/-- A property of each entry of a list and of what stands before it. -/
def Everywhere {A : Type} (P : List A → A → Prop) (entries : List A) : Prop :=
  ∀ before entry behind, entries = before ++ entry :: behind → P before entry

/-- Every call of the sequence does to the mask what it is to do. -/
def Follows : List Call → Prop :=
  Everywhere fun before call =>
    Effect (after before).mask (after (before ++ [call])).mask call

/-- The calls that install a handler or the default; they empty the shared mask. -/
def Call.installs : Call → Bool
  | .sigset _ .SIG_DFL | .sigset _ (.function _) => true
  | _ => false

/-- The calls that record a signal in the shared mask. -/
def Call.records : Call → Bool
  | .sighold _ | .sigset _ .SIG_HOLD => true
  | _ => false

/-- Nothing is recorded since a handler was last installed, or since the start. -/
def Unrecorded (before : List Call) : Prop :=
  ∀ call ∈ before.reverse.takeWhile (!Call.installs ·), call.records = false

/-- The condition on a call and the calls before it. -/
def Honoured (before : List Call) : Call → Prop
  | .sighold sig => sig ∉ unblockable
  | .sigset sig .SIG_HOLD => .sighold sig ∈ before
  | .sigrelse sig => .sighold sig ∉ before ∧ Unrecorded before
  | _ => True

theorem everywhere_nil {A : Type} (P : List A → A → Prop) : Everywhere P [] := by
  intro before entry behind split
  cases before with
  | nil => cases split
  | cons _ _ => cases split

theorem everywhere_snoc {A : Type} {P : List A → A → Prop} {entries : List A} {last : A} :
    Everywhere P (entries ++ [last]) ↔ Everywhere P entries ∧ P entries last := by
  constructor
  · intro h
    constructor
    · intro before entry behind split
      apply h before entry (behind ++ [last])
      rw [split, List.append_assoc, List.cons_append]
    · exact h entries last [] rfl
  · rintro ⟨h, atLast⟩ before entry behind split
    rcases List.eq_nil_or_concat behind with rfl | ⟨front, x, rfl⟩
    · obtain ⟨rfl, same⟩ := List.append_inj' split rfl
      obtain ⟨rfl, -⟩ := List.cons.inj same
      exact atLast
    · have split : entries ++ [last] = (before ++ entry :: front) ++ [x] := by
        rw [split]
        simp
      obtain ⟨rfl, -⟩ := List.append_inj' split rfl
      exact h before entry front rfl

theorem unrecorded_snoc (before : List Call) (call : Call) :
    Unrecorded (before ++ [call]) ↔
      call.installs = true ∨ (call.records = false ∧ Unrecorded before) := by
  rw [Unrecorded, Unrecorded, List.reverse_append, List.reverse_singleton, List.singleton_append]
  cases installs : call.installs with
  | true => simp [installs]
  | false => simp [installs]

/-! ## What each call does to the two masks -/

@[simp] theorem sigaction_mask (p : Process) (sig : Signal) (act : Sigaction) :
    (sigaction p sig act).2.mask = p.mask := by
  rw [sigaction]
  split
  · rfl
  · rfl

@[simp] theorem sigaction_sa (p : Process) (sig : Signal) (act : Sigaction) :
    (sigaction p sig act).2.sa = p.sa := by
  rw [sigaction]
  split
  · rfl
  · rfl

theorem perform_mask (p : Process) (call : Call) :
    (perform p call).mask = match call with
      | .sighold sig => p.mask ∪ insert sig p.sa.mask \ unblockable
      | .sigrelse sig => p.mask \ p.sa.mask.erase sig
      | _ => p.mask := by
  cases call with
  | sigset sig handler =>
    cases handler with
    | SIG_HOLD => rfl
    | _ => simp [perform, mySigset, mySigignore]
  | sigignore sig => simp [perform, mySigignore]
  | _ => rfl

theorem perform_sa_mask (p : Process) (call : Call) :
    (perform p call).sa.mask = match call with
      | .sighold sig | .sigset sig .SIG_HOLD => insert sig p.sa.mask
      | .sigrelse sig => p.sa.mask.erase sig
      | .sigset _ .SIG_IGN | .sigignore _ => p.sa.mask
      | .sigset _ _ => ∅ := by
  cases call with
  | sigset sig handler =>
    cases handler with
    | SIG_HOLD => rfl
    | _ => simp [perform, mySigset, mySigignore]
  | sigignore sig => simp [perform, mySigignore]
  | _ => rfl

/-- While every call does what it is to do, the process mask is the signals ever held, and
the shared mask mirrors a part of it. -/
structure Mirrors (before : List Call) (p : Process) : Prop where
  held : ∀ sig, sig ∈ p.mask ↔ .sighold sig ∈ before
  blockable : ∀ sig ∈ p.mask, sig ∉ unblockable
  recorded : p.sa.mask ⊆ p.mask
  empty : p.sa.mask = ∅ ↔ Unrecorded before

theorem Mirrors.initial : Mirrors [] Process.initial where
  held := by simp [Process.initial]
  blockable := by simp [Process.initial]
  recorded := Finset.Subset.refl _
  empty := by simp [Process.initial, Unrecorded]

/-- Under the mirror the condition says exactly when the next call does its work. -/
theorem Mirrors.effect_iff {before : List Call} {p : Process} (h : Mirrors before p) (call : Call) :
    Effect p.mask (perform p call).mask call ↔ Honoured before call := by
  rw [perform_mask]
  cases call with
  | sighold sig =>
    change p.mask ∪ insert sig p.sa.mask \ unblockable = insert sig p.mask ↔ sig ∉ unblockable
    constructor
    · intro effect
      have blocked : sig ∈ p.mask ∪ insert sig p.sa.mask \ unblockable :=
        effect ▸ Finset.mem_insert_self sig p.mask
      rcases Finset.mem_union.mp blocked with already | added
      · exact h.blockable sig already
      · exact (Finset.mem_sdiff.mp added).2
    · intro allowed
      ext other
      simp only [Finset.mem_union, Finset.mem_sdiff, Finset.mem_insert]
      constructor
      · rintro (already | ⟨rfl | recorded, -⟩)
        · exact Or.inr already
        · exact Or.inl rfl
        · exact Or.inr (h.recorded recorded)
      · rintro (rfl | already)
        · exact Or.inr ⟨Or.inl rfl, allowed⟩
        · exact Or.inl already
  | sigrelse sig =>
    change p.mask \ p.sa.mask.erase sig = p.mask.erase sig ↔
      Call.sighold sig ∉ before ∧ Unrecorded before
    constructor
    · intro effect
      have unheld : sig ∉ p.mask := by
        intro held
        have kept : sig ∈ p.mask \ p.sa.mask.erase sig :=
          Finset.mem_sdiff.mpr ⟨held, Finset.notMem_erase sig p.sa.mask⟩
        rw [effect] at kept
        exact Finset.notMem_erase sig p.mask kept
      refine ⟨fun member => unheld ((h.held sig).mpr member), h.empty.mp ?_⟩
      apply Finset.eq_empty_of_forall_notMem
      intro other recorded
      have held := h.recorded recorded
      have differs : other ≠ sig := by
        rintro rfl
        exact unheld held
      have stays : other ∈ p.mask \ p.sa.mask.erase sig :=
        effect ▸ Finset.mem_erase.mpr ⟨differs, held⟩
      exact (Finset.mem_sdiff.mp stays).2 (Finset.mem_erase.mpr ⟨differs, recorded⟩)
    · rintro ⟨unheld, unrecorded⟩
      have absent : sig ∉ p.mask := fun member => unheld ((h.held sig).mp member)
      rw [h.empty.mpr unrecorded, Finset.erase_empty, Finset.sdiff_empty,
        Finset.erase_eq_of_notMem absent]
  | sigignore sig => simp [Effect, Honoured]
  | sigset sig handler =>
    cases handler with
    | SIG_HOLD =>
      change p.mask = insert sig p.mask ↔ Call.sighold sig ∈ before
      rw [eq_comm, Finset.insert_eq_self, h.held]
    | _ => simp [Effect, Honoured]

/-- A call that leaves the process mask alone. -/
theorem Mirrors.keep {before : List Call} {p q : Process} (h : Mirrors before p) {call : Call}
    (mask : q.mask = p.mask) (other : ∀ sig, call ≠ .sighold sig) (recorded : q.sa.mask ⊆ p.mask)
    (empty : q.sa.mask = ∅ ↔ call.installs = true ∨ (call.records = false ∧ Unrecorded before)) :
    Mirrors (before ++ [call]) q where
  held := by
    intro sig
    rw [mask, h.held, List.mem_append, List.mem_singleton]
    constructor
    · exact Or.inl
    · rintro (earlier | last)
      · exact earlier
      · exact absurd last.symm (other sig)
  blockable := by
    rw [mask]
    exact h.blockable
  recorded := by
    rw [mask]
    exact recorded
  empty := by
    rw [unrecorded_snoc]
    exact empty

theorem Mirrors.step {before : List Call} {p : Process} (h : Mirrors before p) {call : Call}
    (ok : Honoured before call) : Mirrors (before ++ [call]) (perform p call) := by
  have mask := perform_mask p call
  have sa := perform_sa_mask p call
  cases call with
  | sighold sig =>
    have effect : (perform p (.sighold sig)).mask = insert sig p.mask :=
      (h.effect_iff (.sighold sig)).mpr ok
    constructor
    · intro other
      rw [effect, Finset.mem_insert, h.held]
      simp [or_comm]
    · intro other member
      rw [effect] at member
      rcases Finset.mem_insert.mp member with rfl | already
      · exact ok
      · exact h.blockable other already
    · rw [effect, sa]
      exact Finset.insert_subset_insert sig h.recorded
    · rw [sa, unrecorded_snoc]
      simp [Call.installs, Call.records]
  | sigrelse sig =>
    have none := h.empty.mpr ok.2
    have stays : p.sa.mask.erase sig = ∅ := by rw [none, Finset.erase_empty]
    apply h.keep
    · change p.mask \ p.sa.mask.erase sig = p.mask
      rw [stays, Finset.sdiff_empty]
    · simp
    · change p.sa.mask.erase sig ⊆ p.mask
      rw [stays]
      exact Finset.empty_subset _
    · change p.sa.mask.erase sig = ∅ ↔ _
      simp [stays, Call.installs, Call.records, ok.2]
  | sigignore sig =>
    apply h.keep mask
    · simp
    · rw [sa]
      exact h.recorded
    · rw [sa, h.empty]
      simp [Call.installs, Call.records]
  | sigset sig handler =>
    apply h.keep mask
    · simp
    · rw [sa]
      cases handler with
      | SIG_HOLD => exact Finset.insert_subset ((h.held sig).mpr ok) h.recorded
      | SIG_IGN => exact h.recorded
      | _ => exact Finset.empty_subset _
    · rw [sa]
      cases handler with
      | SIG_IGN => simp [Call.installs, Call.records, h.empty]
      | _ => simp [Call.installs, Call.records]

/-- Every call of a sequence does its work exactly when every call is honoured: a hold of a
signal that can be blocked, a SIG_HOLD of one held before, a release of one never held while
nothing is recorded. -/
theorem follows_iff_honoured (calls : List Call) : Follows calls ↔ Everywhere Honoured calls := by
  have both : (Follows calls ↔ Everywhere Honoured calls) ∧
      (Follows calls → Mirrors calls (after calls)) := by
    induction calls using List.reverseRecOn with
    | nil =>
      refine ⟨⟨fun _ => everywhere_nil _, fun _ => everywhere_nil _⟩, fun _ => ?_⟩
      exact Mirrors.initial
    | append_singleton calls call ih =>
      obtain ⟨same, mirrors⟩ := ih
      have next (follows : Follows calls) := (mirrors follows).effect_iff call
      rw [Follows, everywhere_snoc, everywhere_snoc, after_append]
      constructor
      · constructor
        · rintro ⟨follows, effect⟩
          exact ⟨same.mp follows, (next follows).mp effect⟩
        · rintro ⟨honoured, ok⟩
          exact ⟨same.mpr honoured, (next (same.mpr honoured)).mpr ok⟩
      · rintro ⟨follows, effect⟩
        exact (mirrors follows).step ((next follows).mp effect)
  exact both.1

/-- A hold and a release of SIGINT leave it blocked. -/
theorem release_leaves_blocked :
    ¬ Follows [.sighold SIGINT, .sigrelse SIGINT] ∧
      SIGINT ∈ (after [.sighold SIGINT, .sigrelse SIGINT]).mask := by
  have blocked : SIGINT ∈ (after [.sighold SIGINT, .sigrelse SIGINT]).mask := by decide
  refine ⟨?_, blocked⟩
  intro follows
  have effect : (after [.sighold SIGINT, .sigrelse SIGINT]).mask =
      (after [.sighold SIGINT]).mask.erase SIGINT :=
    follows [.sighold SIGINT] (.sigrelse SIGINT) [] rfl
  rw [effect] at blocked
  exact Finset.notMem_erase _ _ blocked

end SystemV
