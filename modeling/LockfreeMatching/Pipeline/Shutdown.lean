import LockfreeMatching.Pipeline.Threads

/-!
# Staged shutdown

A consumer that finds its ring empty goes on to read the stop flag. Between the two reads the
producer may push a last item and exit, and main may join it and set the flag; the consumer
then leaves with the item still queued. Shutdown loses nothing exactly when main never stores
a stop flag inside such a window.

## Main results

* `clearRun_lossless`: runs in which no stop flag is stored into a window lose nothing.
* `pipelineRun_loses_message`: a run that does.
-/
namespace LockfreeMatching

/-- Everything pushed was consumed by the time its consumer left its loop. -/
structure Lossless (s : Pipeline) : Prop where
  engine : s.engine = .exited → s.input.pushed = s.processed
  output : s.consumer = .exited →
    s.output.pushed = s.logged ∧ s.latency.pushed = s.recorded

/-- The engine has found its ring empty and not yet read the flag, but the ring is not empty
any more. -/
def EngineWindow (s : Pipeline) : Prop := s.engine = .loadStop ∧ s.input.queue ≠ []

/-- The output thread is bound to read the flag in this iteration although one of its rings is
not empty any more. -/
def OutputWindow (s : Pipeline) : Prop :=
  (s.consumer = .popFill false ∧ s.output.queue = [] ∧ s.latency.queue ≠ []) ∨
    (s.consumer = .loadStop ∧ (s.output.queue ≠ [] ∨ s.latency.queue ≠ []))

/-- If main is about to store a stop flag, its reader is not in the window. -/
structure StopsClear (s : Pipeline) : Prop where
  engine : s.main = .storeEngineStop → ¬ EngineWindow s
  output : s.main = .storeOutputStop → ¬ OutputWindow s

/-- States reached by runs in which main stores the stop flags outside the windows. -/
inductive ClearRun : Pipeline → Prop where
  | synthetic : ClearRun .synthetic
  | live : ClearRun .live
  | step {s t : Pipeline} : ClearRun s → PipelineStep s t → (RunMain s t → StopsClear s) →
      ClearRun t

/-! ## The invariant of clear runs -/

/-- The message the engine has popped and not yet processed. -/
def EnginePc.held : EnginePc → List EngineMessage
  | .process msg => [msg]
  | _ => []

/-- Main has joined the ingest thread. -/
def MainPc.ingestJoined : MainPc → Prop
  | .wait | .joinIngest => False
  | _ => True

/-- Main has joined the engine thread. -/
def MainPc.engineJoined : MainPc → Prop
  | .storeOutputStop | .joinOutput | .done => True
  | _ => False

structure Draining (s : Pipeline) : Prop where
  input : s.input.pushed = s.processed ++ s.engine.held ++ s.input.queue
  output : s.output.pushed = s.logged ++ s.output.queue
  latency : s.latency.pushed = s.recorded ++ s.latency.queue
  ingestGone : s.main.ingestJoined ∨ s.engineStop = true → s.ingest = .exited
  engineGone : s.main.engineJoined ∨ s.outputStop = true → s.engine = .exited
  engineWindow : s.engineStop = true → ¬ EngineWindow s
  outputWindow : s.outputStop = true → ¬ OutputWindow s
  engineExit : s.engine = .exited → s.ingest = .exited ∧ s.input.queue = []
  outputExit : s.consumer = .exited →
    s.engine = .exited ∧ s.output.queue = [] ∧ s.latency.queue = []
  worked : ∀ i w, s.consumer = .drain i w → 0 < i → w = true

namespace Draining

variable {s t : Pipeline}

theorem synthetic : Draining .synthetic := by
  constructor <;> simp [Pipeline.synthetic, EnginePc.held, MainPc.ingestJoined,
    MainPc.engineJoined]

theorem live : Draining .live := by
  constructor <;> simp [Pipeline.live, EnginePc.held, MainPc.ingestJoined, MainPc.engineJoined]

theorem lossless (h : Draining s) : Lossless s := by
  refine ⟨fun he => ?_, fun ho => ?_⟩
  · have := h.input
    rw [he, (h.engineExit he).2] at this
    simpa [EnginePc.held] using this
  · obtain ⟨-, hout, hlat⟩ := h.outputExit ho
    have hf := h.output
    have hl := h.latency
    rw [hout] at hf
    rw [hlat] at hl
    exact ⟨by simpa using hf, by simpa using hl⟩

/-- Ingest acts only before it was joined, so before `engine_stop` is stored. -/
theorem runIngest (h : Draining s) (hstep : RunIngest s t) : Draining t := by
  have halive : ∀ {pc : IngestPc}, s.ingest = pc → pc ≠ .exited →
      ¬ (s.main.ingestJoined ∨ s.engineStop = true) ∧ s.engine ≠ .exited := by
    intro pc hpc hne
    refine ⟨fun hj => hne (hpc.symm.trans (h.ingestGone hj)), fun he => ?_⟩
    exact hne (hpc.symm.trans (h.engineExit he).1)
  have hpush : ∀ {r : Ring EngineMessage} {msg : EngineMessage},
      s.input.tryPush feedQueueSize msg = some r →
      r.pushed = s.processed ++ s.engine.held ++ r.queue := by
    intro r msg hr
    obtain ⟨rfl, -⟩ := Ring.tryPush_eq hr
    simp [h.input]
  cases hstep with
  | push hpc hr | livePush _ hpc hr =>
    obtain ⟨hmain, heng⟩ := halive hpc (by simp)
    exact ⟨hpush hr, h.output, h.latency, fun hj => absurd hj hmain, h.engineGone,
      fun hs => absurd (.inr hs) hmain, h.outputWindow, fun he => absurd he heng, h.outputExit,
      h.worked⟩
  | generate _ hpc _ | full hpc _ | retry hpc _ =>
    obtain ⟨hmain, heng⟩ := halive hpc (by simp)
    exact ⟨h.input, h.output, h.latency, fun hj => absurd hj hmain, h.engineGone,
      fun hs => absurd (.inr hs) hmain, h.outputWindow, fun he => absurd he heng, h.outputExit,
      h.worked⟩
  | stop hpc _ | giveUp hpc _ | liveExit hpc =>
    exact ⟨h.input, h.output, h.latency, fun _ => rfl, h.engineGone, h.engineWindow,
      h.outputWindow, fun he => ⟨rfl, (h.engineExit he).2⟩, h.outputExit, h.worked⟩

/-- The engine acts only before it was joined, so before `output_stop` is stored. -/
theorem engineAlive (h : Draining s) (halive : s.engine ≠ .exited) :
    ¬ (s.main.engineJoined ∨ s.outputStop = true) ∧ s.consumer ≠ .exited :=
  ⟨fun hj => halive (h.engineGone hj), fun ho => halive (h.outputExit ho).1⟩

/-- An engine that goes on outside its window only has the rings to account for. -/
theorem engineGoesOn (h : Draining s) (halive : s.engine ≠ .exited) (hgoes : t.engine ≠ .exited)
    (hwindow : ¬ EngineWindow t)
    (hothers : t.ingest = s.ingest ∧ t.consumer = s.consumer ∧ t.main = s.main ∧
      t.engineStop = s.engineStop ∧ t.outputStop = s.outputStop)
    (hinput : t.input.pushed = t.processed ++ t.engine.held ++ t.input.queue)
    (houtput : t.output.pushed = t.logged ++ t.output.queue)
    (hlatency : t.latency.pushed = t.recorded ++ t.latency.queue) : Draining t := by
  obtain ⟨hmain, hout⟩ := h.engineAlive halive
  obtain ⟨hi, hc, hm, hes, hos⟩ := hothers
  rw [← hm, ← hos] at hmain
  refine ⟨hinput, houtput, hlatency, ?_, fun hj => absurd hj hmain, fun _ => hwindow,
    fun hs => absurd (.inr hs) hmain, fun he => absurd he hgoes, ?_, ?_⟩
  · rw [hi, hm, hes]
    exact h.ingestGone
  · rw [hc]
    exact fun ho => absurd ho hout
  · rw [hc]
    exact h.worked

theorem runEngine (h : Draining s) (hstep : RunEngine s t) : Draining t := by
  have hinput : ∀ {pc : EnginePc}, s.engine = pc → pc.held = [] →
      s.input.pushed = s.processed ++ s.input.queue := by
    intro pc hpc hheld
    simpa [hpc, hheld] using h.input
  cases hstep with
  | pop hpc hr =>
    obtain ⟨hq, hp, -⟩ := Ring.tryPop_eq hr
    refine h.engineGoesOn (by simp [hpc]) (by simp) (by simp [EngineWindow]) (by simp) ?_
      h.output h.latency
    simp [EnginePc.held, hp, hinput hpc rfl, hq]
  | empty hpc hr =>
    refine h.engineGoesOn (by simp [hpc]) (by simp) (fun hw => hw.2 (Ring.tryPop_none hr))
      (by simp) ?_ h.output h.latency
    simpa [EnginePc.held] using hinput hpc rfl
  | process t0 t1 hpc hproc =>
    refine h.engineGoesOn (by simp [hpc]) (by simp) (by simp [EngineWindow]) (by simp) ?_
      h.output h.latency
    simpa [EnginePc.held, hpc] using h.input
  | pushSample hpc hr =>
    obtain ⟨rfl, -⟩ := Ring.tryPush_eq hr
    refine h.engineGoesOn (by simp [hpc]) (by simp) (by simp [EngineWindow]) (by simp) ?_
      h.output ?_
    · simpa [EnginePc.held] using hinput hpc rfl
    · simp [h.latency]
  | pushFill hpc hr =>
    obtain ⟨rfl, -⟩ := Ring.tryPush_eq hr
    refine h.engineGoesOn (by simp [hpc]) (by simp) (by simp [EngineWindow]) (by simp) ?_ ?_
      h.latency
    · simpa [EnginePc.held] using hinput hpc rfl
    · simp [h.output]
  | dropSample hpc _ | dropFill hpc _ | next hpc | relax hpc _ =>
    refine h.engineGoesOn (by simp [hpc]) (by simp) (by simp [EngineWindow]) (by simp) ?_
      h.output h.latency
    simpa [EnginePc.held] using hinput hpc rfl
  | stop hpc hstop =>
    obtain ⟨hmain, hout⟩ := h.engineAlive (by simp [hpc])
    have hempty : s.input.queue = [] := by
      by_contra hne
      exact h.engineWindow hstop ⟨hpc, hne⟩
    refine ⟨?_, h.output, h.latency, h.ingestGone, fun _ => rfl, fun _ hw => (by cases hw.1),
      h.outputWindow, fun _ => ⟨h.ingestGone (.inr hstop), hempty⟩,
      fun ho => absurd ho hout, h.worked⟩
    simpa [EnginePc.held] using hinput hpc rfl

/-- An output thread that goes on only has its own rings and its window to account for. -/
theorem outputGoesOn (h : Draining s) (hgoes : t.consumer ≠ .exited)
    (hothers : t.input = s.input ∧ t.processed = s.processed ∧ t.ingest = s.ingest ∧
      t.engine = s.engine ∧ t.main = s.main ∧ t.engineStop = s.engineStop ∧
      t.outputStop = s.outputStop)
    (houtput : t.output.pushed = t.logged ++ t.output.queue)
    (hlatency : t.latency.pushed = t.recorded ++ t.latency.queue)
    (hwindow : s.outputStop = true → ¬ OutputWindow t)
    (hworked : ∀ i w, t.consumer = .drain i w → 0 < i → w = true) : Draining t := by
  obtain ⟨hinput, hprocessed, hingest, hengine, hmain, hes, hos⟩ := hothers
  refine ⟨?_, houtput, hlatency, ?_, ?_, ?_, ?_, ?_, fun ho => absurd ho hgoes, hworked⟩
  · rw [hinput, hprocessed, hengine]
    exact h.input
  · rw [hmain, hes, hingest]
    exact h.ingestGone
  · rw [hmain, hos, hengine]
    exact h.engineGone
  · unfold EngineWindow
    rw [hes, hengine, hinput]
    exact h.engineWindow
  · rw [hos]
    exact hwindow
  · rw [hengine, hingest, hinput]
    exact h.engineExit

theorem runOutput (h : Draining s) (hstep : RunOutput s t) : Draining t := by
  cases hstep with
  | popSample hpc _ hr =>
    obtain ⟨hq, hp, -⟩ := Ring.tryPop_eq hr
    refine h.outputGoesOn (by simp) (by simp) h.output ?_ (by simp [OutputWindow])
      fun i w hw _ => (by cases hw; rfl)
    simp [hp, h.latency, hq]
  | noSample hpc _ hr =>
    refine h.outputGoesOn (by simp) (by simp) h.output h.latency ?_ (by simp)
    simp [OutputWindow, Ring.tryPop_none hr]
  | batch hpc hi =>
    have hw := h.worked _ _ hpc (by omega)
    refine h.outputGoesOn (by simp) (by simp) h.output h.latency ?_ (by simp)
    simp [OutputWindow, hw]
  | popFill hpc hr =>
    obtain ⟨hq, hp, -⟩ := Ring.tryPop_eq hr
    refine h.outputGoesOn (by simp) (by simp) ?_ h.latency (by simp [OutputWindow])
      fun i w hw hi => (by cases hw; omega)
    simp [hp, h.output, hq]
  | again hpc _ | sleep hpc _ =>
    exact h.outputGoesOn (by simp) (by simp) h.output h.latency (by simp [OutputWindow])
      fun i w hw hi => (by cases hw; omega)
  | idle hpc hr =>
    have hempty := Ring.tryPop_none hr
    refine h.outputGoesOn (by simp) (by simp) h.output h.latency ?_ (by simp)
    -- the latency ring was already seen empty in this iteration, or the flag is not set yet
    rintro hs (⟨hw, -⟩ | ⟨-, hne | hne⟩)
    · cases hw
    · exact hne hempty
    · exact h.outputWindow hs (.inl ⟨hpc, hempty, hne⟩)
  | stop hpc hstop =>
    have hclear := h.outputWindow hstop
    refine ⟨h.input, h.output, h.latency, h.ingestGone, h.engineGone, h.engineWindow, ?_,
      h.engineExit, fun _ => ⟨h.engineGone (.inr hstop), ?_, ?_⟩, fun i w hw => (by cases hw)⟩
    · rintro - (⟨hw, -⟩ | ⟨hw, -⟩) <;> cases hw
    · by_contra hne
      exact hclear (.inr ⟨hpc, .inl hne⟩)
    · by_contra hne
      exact hclear (.inr ⟨hpc, .inr hne⟩)

/-- Main joins a thread before it stores the flag of the next. -/
theorem runMain (h : Draining s) (hclear : StopsClear s) (hstep : RunMain s t) : Draining t := by
  have hmain : ∀ {m : MainPc}, s.main = m → m.ingestJoined ∨ s.engineStop = true →
      s.ingest = .exited := fun hm hj => h.ingestGone (hm ▸ hj)
  cases hstep with
  | notice hpc _ | deadline hpc =>
    exact ⟨h.input, h.output, h.latency, fun hj => h.ingestGone (hj.imp False.elim id),
      fun hj => h.engineGone (hj.imp False.elim id), h.engineWindow, h.outputWindow, h.engineExit,
      h.outputExit, h.worked⟩
  | joinIngest hpc hi =>
    exact ⟨h.input, h.output, h.latency, fun _ => hi,
      fun hj => h.engineGone (hj.imp False.elim id), h.engineWindow, h.outputWindow, h.engineExit,
      h.outputExit, h.worked⟩
  | storeEngineStop hpc =>
    exact ⟨h.input, h.output, h.latency, fun _ => hmain hpc (.inl trivial),
      fun hj => h.engineGone (hj.imp False.elim id), fun _ => hclear.engine hpc, h.outputWindow,
      h.engineExit, h.outputExit, h.worked⟩
  | joinEngine hpc he =>
    exact ⟨h.input, h.output, h.latency, fun _ => hmain hpc (.inl trivial), fun _ => he,
      h.engineWindow, h.outputWindow, h.engineExit, h.outputExit, h.worked⟩
  | storeOutputStop hpc =>
    have hj : s.main.engineJoined := by rw [hpc]; trivial
    exact ⟨h.input, h.output, h.latency, fun _ => hmain hpc (.inl trivial),
      fun _ => h.engineGone (.inl hj), h.engineWindow, fun _ => hclear.output hpc, h.engineExit,
      h.outputExit, h.worked⟩
  | joinOutput hpc ho =>
    exact ⟨h.input, h.output, h.latency, fun _ => hmain hpc (.inl trivial),
      fun _ => (h.outputExit ho).1, h.engineWindow, h.outputWindow, h.engineExit, h.outputExit,
      h.worked⟩

theorem step (h : Draining s) (hstep : PipelineStep s t) (hclear : RunMain s t → StopsClear s) :
    Draining t := by
  cases hstep with
  | ingest hi => exact h.runIngest hi
  | engine he => exact h.runEngine he
  | output ho => exact h.runOutput ho
  | main hm => exact h.runMain (hclear hm) hm
  | signal =>
    exact ⟨h.input, h.output, h.latency, h.ingestGone, h.engineGone, h.engineWindow,
      h.outputWindow, h.engineExit, h.outputExit, h.worked⟩

end Draining

theorem ClearRun.draining {s : Pipeline} (h : ClearRun s) : Draining s := by
  induction h with
  | synthetic => exact .synthetic
  | live => exact .live
  | step _ hstep hclear ih => exact ih.step hstep hclear

/-- If main never stores a stop flag inside a window, nothing is lost. -/
theorem clearRun_lossless {s : Pipeline} (h : ClearRun s) : Lossless s := h.draining.lossless

/-- A cancel of an id that was never submitted. -/
def strayCancel : EngineMessage := .cancel { id := 7 }

/-- A run to completion that carries one message through all stages. -/
theorem strayCancel_clearRun : ∃ s, ClearRun s ∧ s.engine = .exited ∧ s.consumer = .exited ∧
    s.processed = [strayCancel] ∧ s.recorded = [{ kind := .match_, ns := 5 }] := by
  have hearly : ∀ {s t : Pipeline}, s.main = .wait → RunMain s t → StopsClear s := by
    intro s t hm _
    constructor <;> intro h <;> rw [hm] at h <;> cases h
  have hproc : MatchingEngine.process .new strayCancel =
      some { MatchingEngine.new with fills := [] } :=
    rfl
  have h₁ := ClearRun.synthetic.step (.ingest (.generate strayCancel rfl rfl)) (hearly rfl)
  have h₂ := h₁.step (.ingest (.push rfl rfl)) (hearly rfl)
  have h₃ := h₂.step (.engine (.pop rfl rfl)) (hearly rfl)
  have h₄ := h₃.step (.engine (.process 0 5 rfl hproc)) (hearly rfl)
  have h₅ := h₄.step (.engine (.pushSample rfl rfl)) (hearly rfl)
  have h₆ := h₅.step (.engine (.next rfl)) (hearly rfl)
  have h₇ := h₆.step (.signal _) (hearly rfl)
  have h₈ := h₇.step (.ingest (.stop rfl rfl)) (hearly rfl)
  have h₉ := h₈.step (.main (.notice rfl rfl)) (hearly rfl)
  have h₁₀ := h₉.step (.main (.joinIngest rfl rfl)) fun _ =>
    ⟨fun h => (by cases h), fun h => (by cases h)⟩
  have h₁₁ := h₁₀.step (.main (.storeEngineStop rfl)) fun _ =>
    ⟨fun _ hw => (by cases hw.1), fun h => (by cases h)⟩
  have hlate : ∀ {s t : Pipeline}, s.main = .joinEngine ∨ s.main = .joinOutput → RunMain s t →
      StopsClear s := by
    rintro s t (hm | hm) _ <;> constructor <;> intro h <;> rw [hm] at h <;> cases h
  have h₁₂ := h₁₁.step (.engine (.empty rfl rfl)) (hlate (.inl rfl))
  have h₁₃ := h₁₂.step (.engine (.stop rfl rfl)) (hlate (.inl rfl))
  have h₁₄ := h₁₃.step (.main (.joinEngine rfl rfl)) (hlate (.inl rfl))
  have h₁₅ := h₁₄.step (.main (.storeOutputStop rfl)) fun _ =>
    ⟨fun h => (by cases h), fun _ hw => (by rcases hw with ⟨h, -⟩ | ⟨h, -⟩ <;> cases h)⟩
  have h₁₆ := h₁₅.step (.output (.popSample rfl (by decide) rfl)) (hlate (.inr rfl))
  have h₁₇ := h₁₆.step (.output (.noSample rfl (by decide) rfl)) (hlate (.inr rfl))
  have h₁₈ := h₁₇.step (.output (.again rfl rfl)) (hlate (.inr rfl))
  have h₁₉ := h₁₈.step (.output (.noSample rfl (by decide) rfl)) (hlate (.inr rfl))
  have h₂₀ := h₁₉.step (.output (.idle rfl rfl)) (hlate (.inr rfl))
  have h₂₁ := h₂₀.step (.output (.stop rfl rfl)) (hlate (.inr rfl))
  exact ⟨_, h₂₁, rfl, rfl, rfl, rfl⟩

theorem clearRun_lossless_strayCancel :
    ∃ s, ClearRun s ∧ Lossless s ∧ s.engine = .exited ∧ s.input.pushed = [strayCancel] := by
  obtain ⟨s, hrun, hexit, -, hproc, -⟩ := strayCancel_clearRun
  have hlossless := clearRun_lossless hrun
  exact ⟨s, hrun, hlossless, hexit, (hlossless.engine hexit).trans hproc⟩

/-- The engine finds its ring empty; a message is pushed, ingest exits and is joined, and
`engine_stop` is stored; the engine reads the flag and leaves with the message queued. -/
theorem pipelineRun_loses_message : ¬ ∀ s, PipelineRun s → Lossless s := by
  intro hall
  have h₁ := PipelineRun.synthetic.step (.engine (.empty rfl rfl))
  have h₂ := h₁.step (.ingest (.generate strayCancel rfl rfl))
  have h₃ := h₂.step (.ingest (.push rfl rfl))
  have h₄ := h₃.step (.signal _)
  have h₅ := h₄.step (.ingest (.stop rfl rfl))
  have h₆ := h₅.step (.main (.notice rfl rfl))
  have h₇ := h₆.step (.main (.joinIngest rfl rfl))
  have h₈ := h₇.step (.main (.storeEngineStop rfl))
  have h₉ := h₈.step (.engine (.stop rfl rfl))
  have hlost : [strayCancel] = [] := (hall _ h₉).engine rfl
  cases hlost

end LockfreeMatching
