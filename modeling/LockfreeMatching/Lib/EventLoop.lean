import Mathlib.Data.List.Basic

/-!
# Single-threaded event loops

Handlers start operations, which complete later with an outcome, and other threads post jobs.
A loop runs one handler at a time, of a completed operation or of a posted job, in any order.
Aborting an operation that is still pending completes it with `aborted`; one that has
completed already keeps its outcome.

## Main results

* `EventLoop.step_cases`: what a step can do. Operations that end or are aborted stay
  outstanding until their handler runs, so only handlers and jobs show.
* `EventLoop.quiet_iff`: if only the success of certain leading operations can bring about an
  effect, then the effect never occurs again exactly if no leading operation is pending or has
  succeeded with its handler still to run.
-/
namespace LockfreeMatching.Lib

/-- How an operation ended. -/
inductive Outcome where
  | ok
  | failed
  | aborted
deriving DecidableEq

/-- What a handler does that can be seen from outside. -/
inductive Effect (Op Fn : Type) where
  | start (op : Op)
  | call (f : Fn)
deriving DecidableEq

structure EventLoop (S Op Job Fn : Type) where
  state : S
  /-- Operations under way. -/
  pending : List Op := []
  /-- Operations that ended and whose handler has not run. -/
  ready : List (Op × Outcome) := []
  posted : List Job := []
  log : List (Effect Op Fn) := []

/-- The handlers. `completed` is given what the libraries it calls answer, and `drift` is a
change of the state between two handlers. -/
structure Handlers (S Op Job Fn Answer : Type) where
  completed : Op → Outcome → Answer → EventLoop S Op Job Fn → EventLoop S Op Job Fn
  run : Job → EventLoop S Op Job Fn → EventLoop S Op Job Fn
  drift : S → S

/-- What happens next: an operation ends, a handler runs, a job is posted, the state drifts. -/
inductive LoopMove (Op Job Answer : Type) where
  | complete (op : Op) (success : Bool)
  | handle (op : Op) (outcome : Outcome) (answer : Answer)
  | post (job : Job)
  | dispatch (job : Job)
  | drift

namespace EventLoop

variable {S Op Job Fn Answer : Type} [DecidableEq Op] [DecidableEq Job]

def start (l : EventLoop S Op Job Fn) (op : Op) : EventLoop S Op Job Fn :=
  { l with
    pending := l.pending ++ [op]
    log := l.log ++ [.start op] }

def call (l : EventLoop S Op Job Fn) (f : Fn) : EventLoop S Op Job Fn :=
  { l with log := l.log ++ [.call f] }

def update (l : EventLoop S Op Job Fn) (f : S → S) : EventLoop S Op Job Fn :=
  { l with state := f l.state }

/-- Abort the pending operations that satisfy `p`. -/
def abort (l : EventLoop S Op Job Fn) (p : Op → Bool) : EventLoop S Op Job Fn :=
  { l with
    pending := l.pending.filter fun op => !p op
    ready := l.ready ++ (l.pending.filter p).map fun op => (op, .aborted) }

/-- A move that is not enabled changes nothing. -/
def step (h : Handlers S Op Job Fn Answer) (l : EventLoop S Op Job Fn) :
    LoopMove Op Job Answer → EventLoop S Op Job Fn
  | .complete op success =>
    if op ∈ l.pending then
      { l with
        pending := l.pending.erase op
        ready := l.ready ++ [(op, if success then .ok else .failed)] }
    else l
  | .handle op outcome answer =>
    if (op, outcome) ∈ l.ready then
      h.completed op outcome answer { l with ready := l.ready.erase (op, outcome) }
    else l
  | .post job => { l with posted := l.posted ++ [job] }
  | .dispatch job =>
    if job ∈ l.posted then h.run job { l with posted := l.posted.erase job } else l
  | .drift => { l with state := h.drift l.state }

def run (h : Handlers S Op Job Fn Answer) (l : EventLoop S Op Job Fn) :
    List (LoopMove Op Job Answer) → EventLoop S Op Job Fn
  | [] => l
  | m :: ms => run h (l.step h m) ms

/-- What holds at the start and after every step holds after every run. -/
theorem run_induction {h : Handlers S Op Job Fn Answer} {I : EventLoop S Op Job Fn → Prop}
    (hstep : ∀ l m, I l → I (l.step h m)) {l : EventLoop S Op Job Fn} (hl : I l)
    (ms : List (LoopMove Op Job Answer)) : I (l.run h ms) := by
  induction ms generalizing l with
  | nil => exact hl
  | cons m ms ih => exact ih (hstep l m hl)

theorem run_append (h : Handlers S Op Job Fn Answer) (l : EventLoop S Op Job Fn)
    (ms ms' : List (LoopMove Op Job Answer)) : l.run h (ms ++ ms') = (l.run h ms).run h ms' := by
  induction ms generalizing l with
  | nil => rfl
  | cons m ms ih => exact ih (l.step h m)

/-- What `f` notes of the steps of a run. -/
def trace {β : Type} (h : Handlers S Op Job Fn Answer)
    (f : EventLoop S Op Job Fn → LoopMove Op Job Answer → Option β) (l : EventLoop S Op Job Fn) :
    List (LoopMove Op Job Answer) → List β
  | [] => []
  | m :: ms => (f l m).toList ++ trace h f (l.step h m) ms

theorem trace_append {β : Type} (h : Handlers S Op Job Fn Answer)
    (f : EventLoop S Op Job Fn → LoopMove Op Job Answer → Option β) (l : EventLoop S Op Job Fn)
    (ms ms' : List (LoopMove Op Job Answer)) :
    trace h f l (ms ++ ms') = trace h f l ms ++ trace h f (l.run h ms) ms' := by
  induction ms generalizing l with
  | nil => rfl
  | cons m ms ih => simp [trace, run, ih]

theorem trace_concat {β : Type} (h : Handlers S Op Job Fn Answer)
    (f : EventLoop S Op Job Fn → LoopMove Op Job Answer → Option β) (l : EventLoop S Op Job Fn)
    (ms : List (LoopMove Op Job Answer)) (m : LoopMove Op Job Answer) :
    trace h f l (ms ++ [m]) = trace h f l ms ++ (f (l.run h ms) m).toList := by
  simp [trace_append, trace]

/-! ## Operations outstanding -/

/-- How many operations that satisfy `q` have been started and not yet handled. -/
def outstanding (l : EventLoop S Op Job Fn) (q : Op → Bool) : Nat :=
  l.pending.countP q + l.ready.countP fun r => q r.1

/-- The loop while the handler of `op` runs. -/
def handling (l : EventLoop S Op Job Fn) (op : Op) (outcome : Outcome) : EventLoop S Op Job Fn :=
  { l with ready := l.ready.erase (op, outcome) }

/-- The loop while a posted job runs. -/
def dispatching (l : EventLoop S Op Job Fn) (job : Job) : EventLoop S Op Job Fn :=
  { l with posted := l.posted.erase job }

section Fields

variable (l : EventLoop S Op Job Fn) (op : Op) (f : Fn) (g : S → S) (p : Op → Bool)

omit [DecidableEq Op] [DecidableEq Job]

@[simp] theorem start_log : (l.start op).log = l.log ++ [.start op] := rfl
@[simp] theorem call_log : (l.call f).log = l.log ++ [.call f] := rfl
@[simp] theorem update_state : (l.update g).state = g l.state := rfl
@[simp] theorem abort_state : (l.abort p).state = l.state := rfl

end Fields

omit [DecidableEq Op] [DecidableEq Job] in
/-- Several operations started one after the other. -/
theorem foldl_start {α : Type} (g : α → Op) (as : List α) (l : EventLoop S Op Job Fn) :
    as.foldl (fun l a => l.start (g a)) l =
      { l with
        pending := l.pending ++ as.map g
        log := l.log ++ as.map fun a => .start (g a) } := by
  induction as generalizing l with
  | nil => simp
  | cons a as ih =>
    rw [List.foldl_cons, ih]
    simp [start]

section Outstanding

variable (l : EventLoop S Op Job Fn) (q : Op → Bool)

omit [DecidableEq Op] [DecidableEq Job] in
@[simp] theorem outstanding_start (op : Op) :
    (l.start op).outstanding q = l.outstanding q + if q op then 1 else 0 := by
  simp only [outstanding, start, List.countP_append, List.countP_singleton]
  omega

omit [DecidableEq Op] [DecidableEq Job] in
/-- Aborted operations still have to be handled. -/
@[simp] theorem outstanding_abort (p : Op → Bool) :
    (l.abort p).outstanding q = l.outstanding q := by
  have hsplit := List.countP_eq_countP_filter_add l.pending q p
  have hmap : ((l.pending.filter p).map fun op => (op, Outcome.aborted)).countP
      (fun r => q r.1) = (l.pending.filter p).countP q := by
    simp [List.countP_map, Function.comp_def]
  simp only [outstanding, abort, List.countP_append, hmap, hsplit]
  omega

variable {l}

omit [DecidableEq Op] [DecidableEq Job] in
theorem outstanding_pos_of_pending {op : Op} (hmem : op ∈ l.pending) (hq : q op = true) :
    0 < l.outstanding q :=
  Nat.add_pos_left (List.countP_pos_iff.2 ⟨op, hmem, hq⟩) _

omit [DecidableEq Op] [DecidableEq Job] in
theorem outstanding_pos_of_ready {op : Op} {outcome : Outcome} (hmem : (op, outcome) ∈ l.ready)
    (hq : q op = true) : 0 < l.outstanding q :=
  Nat.add_pos_right _ (List.countP_pos_iff.2 ⟨(op, outcome), hmem, hq⟩)

omit [DecidableEq Job] in
theorem outstanding_handling {op : Op} {outcome : Outcome} (hmem : (op, outcome) ∈ l.ready) :
    l.outstanding q = (l.handling op outcome).outstanding q + if q op then 1 else 0 := by
  have hperm := (List.perm_cons_erase hmem).countP_eq fun r => q r.1
  simp only [outstanding, handling, hperm, List.countP_cons]
  omega

variable (l)

theorem outstanding_complete (h : Handlers S Op Job Fn Answer) (op : Op) (success : Bool) :
    (l.step h (.complete op success)).outstanding q = l.outstanding q := by
  by_cases hmem : op ∈ l.pending
  · have hperm := (List.perm_cons_erase hmem).countP_eq q
    rw [step, if_pos hmem]
    simp only [outstanding, hperm, List.countP_append, List.countP_cons, List.countP_nil]
    omega
  · rw [step, if_neg hmem]

/-- `l'` has the state and log of `l` and as many operations of each kind outstanding. -/
structure Same (l l' : EventLoop S Op Job Fn) : Prop where
  state : l'.state = l.state
  log : l'.log = l.log
  outstanding : ∀ q, l'.outstanding q = l.outstanding q

/-- A step runs a handler or a job, drifts, or does nothing that shows. -/
theorem step_cases (h : Handlers S Op Job Fn Answer) (m : LoopMove Op Job Answer) :
    Same l (l.step h m) ∨
    (∃ op outcome answer, m = .handle op outcome answer ∧ (op, outcome) ∈ l.ready ∧
      l.step h m = h.completed op outcome answer (l.handling op outcome)) ∨
    (∃ job, m = .dispatch job ∧ job ∈ l.posted ∧
      l.step h m = h.run job (l.dispatching job)) ∨
    (m = .drift ∧ l.step h m = l.update h.drift) := by
  have hself : Same l l := ⟨rfl, rfl, fun _ => rfl⟩
  cases m with
  | complete op success =>
    refine .inl ⟨?_, ?_, fun q => outstanding_complete l q h op success⟩
    · rw [step]; split <;> rfl
    · rw [step]; split <;> rfl
  | handle op outcome answer =>
    by_cases hmem : (op, outcome) ∈ l.ready
    · exact .inr (.inl ⟨op, outcome, answer, rfl, hmem, if_pos hmem⟩)
    · rw [step, if_neg hmem]
      exact .inl hself
  | post job => exact .inl ⟨rfl, rfl, fun _ => rfl⟩
  | dispatch job =>
    by_cases hmem : job ∈ l.posted
    · exact .inr (.inr (.inl ⟨job, rfl, hmem, if_pos hmem⟩))
    · rw [step, if_neg hmem]
      exact .inl hself
  | drift => exact .inr (.inr (.inr ⟨rfl, rfl⟩))

end Outstanding

/-- No leading operation is pending, or has succeeded with its handler still to run. -/
structure Quiet (lead : Op → Prop) (l : EventLoop S Op Job Fn) : Prop where
  pending : ∀ op ∈ l.pending, ¬ lead op
  ready : ∀ op, (op, .ok) ∈ l.ready → ¬ lead op

section Quiet

variable {lead : Op → Prop} {l : EventLoop S Op Job Fn}

omit [DecidableEq Op] [DecidableEq Job] in
theorem Quiet.start (hq : Quiet lead l) {op : Op} (hop : ¬ lead op) : Quiet lead (l.start op) where
  pending := by
    intro op' hop'
    rcases List.mem_append.1 hop' with hop' | hop'
    · exact hq.pending op' hop'
    · rwa [List.mem_singleton.1 hop']
  ready := hq.ready

omit [DecidableEq Op] [DecidableEq Job] in
theorem mem_ready_abort {p : Op → Bool} {op : Op} :
    (op, .ok) ∈ (l.abort p).ready ↔ (op, .ok) ∈ l.ready := by
  simp [abort]

omit [DecidableEq Op] [DecidableEq Job] in
theorem Quiet.abort (hq : Quiet lead l) (p : Op → Bool) : Quiet lead (l.abort p) where
  pending op hop := hq.pending op (List.mem_of_mem_filter hop)
  ready op hop := hq.ready op (mem_ready_abort.1 hop)

end Quiet

/-! ## Effects that only leading operations bring about -/

section Silence

variable (h : Handlers S Op Job Fn Answer) (lead : Op → Prop) (seen : Effect Op Fn → Bool)
  (I : S → Prop)

/-- What `l'` shows is what `l` showed. -/
structure Silent (l l' : EventLoop S Op Job Fn) : Prop where
  state : I l'.state
  quiet : Quiet lead l'
  log : l'.log.filter seen = l.log.filter seen

section Silent

variable {lead seen I} {l l' : EventLoop S Op Job Fn}

omit [DecidableEq Op] [DecidableEq Job]

theorem Silent.start (hl : Silent lead seen I l l') {op : Op} (hop : ¬ lead op)
    (hseen : seen (.start op) = false) : Silent lead seen I l (l'.start op) where
  state := hl.state
  quiet := hl.quiet.start hop
  log := by simp [EventLoop.start, hseen, hl.log]

theorem Silent.starts {α : Type} (hl : Silent lead seen I l l') (g : α → Op) {as : List α}
    (has : ∀ a ∈ as, ¬ lead (g a) ∧ seen (.start (g a)) = false) :
    Silent lead seen I l (as.foldl (fun l a => l.start (g a)) l') := by
  induction as generalizing l' with
  | nil => exact hl
  | cons a as ih =>
    obtain ⟨hlead, hseen⟩ := has a (by simp)
    exact ih (hl.start hlead hseen) fun b hb => has b (by simp [hb])

theorem Silent.call (hl : Silent lead seen I l l') {f : Fn} (hseen : seen (.call f) = false) :
    Silent lead seen I l (l'.call f) where
  state := hl.state
  quiet := ⟨hl.quiet.pending, hl.quiet.ready⟩
  log := by simp [EventLoop.call, hseen, hl.log]

theorem Silent.update (hl : Silent lead seen I l l') {f : S → S} (hf : I (f l'.state)) :
    Silent lead seen I l (l'.update f) where
  state := hf
  quiet := ⟨hl.quiet.pending, hl.quiet.ready⟩
  log := hl.log

theorem Silent.abort (hl : Silent lead seen I l l') (p : Op → Bool) :
    Silent lead seen I l (l'.abort p) where
  state := hl.state
  quiet := hl.quiet.abort p
  log := hl.log

end Silent

/-- From a quiet loop every handler is silent, but for those of leading operations. -/
structure Silences : Prop where
  completed : ∀ op outcome answer (l : EventLoop S Op Job Fn), I l.state → Quiet lead l →
    (outcome = .ok → ¬ lead op) → Silent lead seen I l (h.completed op outcome answer l)
  job : ∀ job (l : EventLoop S Op Job Fn), I l.state → Quiet lead l →
    Silent lead seen I l (h.run job l)
  drift : ∀ s, I s → I (h.drift s)

variable {h lead seen I}

theorem Silences.step (hs : Silences h lead seen I) {l : EventLoop S Op Job Fn}
    (hI : I l.state) (hq : Quiet lead l) (m : LoopMove Op Job Answer) :
    Silent lead seen I l (l.step h m) := by
  have hself : Silent lead seen I l l := ⟨hI, hq, rfl⟩
  cases m with
  | complete op success =>
    by_cases hmem : op ∈ l.pending
    · rw [EventLoop.step, if_pos hmem]
      refine ⟨hI, ⟨fun op' hop' => hq.pending op' (List.mem_of_mem_erase hop'), ?_⟩, rfl⟩
      intro op' hop'
      rcases List.mem_append.1 hop' with hop' | hop'
      · exact hq.ready op' hop'
      · obtain ⟨rfl, -⟩ := Prod.mk.inj (List.mem_singleton.1 hop')
        exact hq.pending op' hmem
    · rw [EventLoop.step, if_neg hmem]
      exact hself
  | handle op outcome answer =>
    by_cases hmem : (op, outcome) ∈ l.ready
    · rw [EventLoop.step, if_pos hmem]
      have hq' : Quiet lead { l with ready := l.ready.erase (op, outcome) } :=
        ⟨hq.pending, fun op' hop' => hq.ready op' (List.mem_of_mem_erase hop')⟩
      obtain ⟨hI', hquiet, hlog⟩ := hs.completed op outcome answer
        { l with ready := l.ready.erase (op, outcome) } hI hq' (by
          rintro rfl
          exact hq.ready op hmem)
      exact ⟨hI', hquiet, hlog⟩
    · rw [EventLoop.step, if_neg hmem]
      exact hself
  | post job => exact ⟨hI, ⟨hq.pending, hq.ready⟩, rfl⟩
  | dispatch job =>
    by_cases hmem : job ∈ l.posted
    · rw [EventLoop.step, if_pos hmem]
      obtain ⟨hI', hquiet, hlog⟩ := hs.job job { l with posted := l.posted.erase job } hI
        ⟨hq.pending, hq.ready⟩
      exact ⟨hI', hquiet, hlog⟩
    · rw [EventLoop.step, if_neg hmem]
      exact hself
  | drift => exact ⟨hs.drift _ hI, ⟨hq.pending, hq.ready⟩, rfl⟩

/-- Once quiet, always silent. -/
theorem Silences.run (hs : Silences h lead seen I) {l : EventLoop S Op Job Fn}
    (hI : I l.state) (hq : Quiet lead l) (ms : List (LoopMove Op Job Answer)) :
    Silent lead seen I l (l.run h ms) := by
  apply run_induction (I := Silent lead seen I l) _ ⟨hI, hq, rfl⟩
  intro l' m hl'
  obtain ⟨hI', hquiet, hlog⟩ := hs.step hl'.state hl'.quiet m
  exact ⟨hI', hquiet, hlog.trans hl'.log⟩

/-- If the success of a leading operation always shows an effect, silence needs quiet. -/
theorem quiet_iff (hs : Silences h lead seen I)
    (hlead : ∀ op, lead op → ∃ answer, ∀ l : EventLoop S Op Job Fn,
      (h.completed op .ok answer l).log.filter seen ≠ l.log.filter seen)
    {l : EventLoop S Op Job Fn} (hI : I l.state) :
    (∀ ms, (l.run h ms).log.filter seen = l.log.filter seen) ↔ Quiet lead l := by
  refine ⟨fun hsilent => ⟨fun op hop hl => ?_, fun op hop hl => ?_⟩,
    fun hq ms => (hs.run hI hq ms).log⟩
  · -- let the operation succeed and run its handler
    obtain ⟨answer, hshow⟩ := hlead op hl
    have hend := hsilent [.complete op true, .handle op .ok answer]
    rw [EventLoop.run, EventLoop.run, EventLoop.run, step, if_pos hop, step,
      if_pos (by simp)] at hend
    exact hshow _ hend
  · obtain ⟨answer, hshow⟩ := hlead op hl
    have hend := hsilent [.handle op .ok answer]
    rw [EventLoop.run, EventLoop.run, step, if_pos hop] at hend
    exact hshow _ hend

end Silence

end EventLoop

end LockfreeMatching.Lib
