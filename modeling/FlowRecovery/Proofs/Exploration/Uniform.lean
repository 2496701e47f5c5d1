import Mathlib
import FlowRecovery.Exploration
import FlowRecovery.Proofs.Memory.Concretisation

namespace FlowRecovery

variable {ι ε α β : Type}

namespace SimM

/-- For every solver and log, a computation that may fail gives the same result and the same
discovery up to the log. The discovery satisfies an invariant, and the result, unless it is an
error, a condition. -/
def Uniform (x : ι → ExceptT ε SimM α) (d : Discovery) (inv : Discovery → Prop)
    (post : α → Discovery → Prop) :
    Prop :=
  ∃ result d', inv d' ∧ (∀ a, result = .ok a → post a d') ∧
    ∀ i log, ∃ log', (x i).run.run.run { d with log } = (.ok result, { d' with log := log' })

variable {d : Discovery} {inv : Discovery → Prop} {post : α → Discovery → Prop}
  {post' : β → Discovery → Prop}

theorem Uniform.pure {a : α} (hd : inv d) (h : post a d) :
    Uniform (ε := ε) (fun _ : ι => Pure.pure a) d inv post := by
  refine ⟨.ok a, d, hd, ?_, fun _ log => ⟨log, rfl⟩⟩
  rintro _ ⟨⟩
  exact h

theorem Uniform.bind {x : ι → ExceptT ε SimM α} {f : ι → α → ExceptT ε SimM β}
    (hx : Uniform x d inv post)
    (hf : ∀ a d', inv d' → post a d' → Uniform (fun i => f i a) d' inv post') :
    Uniform (fun i => x i >>= f i) d inv post' := by
  obtain ⟨result, d', hd', hpost, hx⟩ := hx
  cases result with
  | error error =>
      refine ⟨.error error, d', hd', nofun, fun i log => ?_⟩
      obtain ⟨log', hrun⟩ := hx i log
      refine ⟨log', ?_⟩
      rw [ExceptT.run_bind, ExceptT.run_bind, StateT.run_bind, hrun]
      rfl
  | ok a =>
      obtain ⟨result, d'', hd'', hpost', hf⟩ := hf a d' hd' (hpost a rfl)
      refine ⟨result, d'', hd'', hpost', fun i log => ?_⟩
      obtain ⟨log', hrun⟩ := hx i log
      obtain ⟨log'', hrest⟩ := hf i log'
      refine ⟨log'', ?_⟩
      rw [ExceptT.run_bind, ExceptT.run_bind, StateT.run_bind, hrun]
      exact hrest

theorem Uniform.get {f : ι → Discovery → ExceptT ε SimM β}
    (hlog : ∀ i log, f i { d with log } = f i d) (hf : Uniform (fun i => f i d) d inv post') :
    Uniform (fun i => MonadState.get >>= f i) d inv post' := by
  obtain ⟨result, d', hd', hpost, hf⟩ := hf
  refine ⟨result, d', hd', hpost, fun i log => ?_⟩
  obtain ⟨log', hrun⟩ := hf i log
  have hsame : (f i { d with log }).run.run.run { d with log } = (f i d).run.run.run
      { d with log } := by
    rw [hlog i log]
  exact ⟨log', hsame.trans hrun⟩

theorem Uniform.modify {f : Discovery → Discovery} {g : ι → PUnit → ExceptT ε SimM β}
    (hlog : ∀ log, f { d with log } = { f d with log })
    (hg : Uniform (fun i => g i ⟨⟩) (f d) inv post') :
    Uniform (fun i => MonadStateOf.modifyGet (fun d => (⟨⟩, f d)) >>= g i) d inv post' := by
  obtain ⟨result, d', hd', hpost, hg⟩ := hg
  refine ⟨result, d', hd', hpost, fun i log => ?_⟩
  obtain ⟨log', hrun⟩ := hg i log
  refine ⟨log', ?_⟩
  rw [← hlog log] at hrun
  exact hrun

theorem Uniform.report {event : ι → Event} {g : ι → PUnit → ExceptT ε SimM β}
    (hg : Uniform (fun i => g i ⟨⟩) d inv post') :
    Uniform (fun i => liftM (Simulator.report (event i)) >>= g i) d inv post' := by
  obtain ⟨result, d', hd', hpost, hg⟩ := hg
  refine ⟨result, d', hd', hpost, fun i log => ?_⟩
  obtain ⟨log', hrun⟩ := hg i (log.push (event i))
  exact ⟨log', hrun⟩

theorem Uniform.lift {x : ι → SimM α} {a : α} (d' : Discovery)
    (hx : ∀ i log, (x i).run.run { d with log } = (.ok a, { d' with log }))
    {f : ι → α → ExceptT ε SimM β} (hf : Uniform (fun i => f i a) d' inv post') :
    Uniform (fun i => liftM (x i) >>= f i) d inv post' := by
  obtain ⟨result, d'', hd'', hpost, hf⟩ := hf
  refine ⟨result, d'', hd'', hpost, fun i log => ?_⟩
  obtain ⟨log', hrun⟩ := hf i log
  have hlift : (liftM (x i) : ExceptT ε SimM α).run.run.run { d with log } =
      (.ok (.ok a), { d' with log }) := by
    change (ExceptT.run (Except.ok <$> x i)).run { d with log } = _
    rw [map_eq_pure_bind, ExceptT.run_bind, StateT.run_bind, hx]
    rfl
  refine ⟨log', ?_⟩
  rw [ExceptT.run_bind, ExceptT.run_bind, StateT.run_bind, hlift]
  exact hrun

theorem Uniform.checked {c : Checked α} {a : α} (hc : c = .ok a) {f : ι → α → ExceptT ε SimM β}
    (hf : Uniform (fun i => f i a) d inv post') :
    Uniform (fun i => liftM c >>= f i) d inv post' := by
  subst hc
  exact hf

theorem Uniform.attempt {P : α → Prop} {c : Attempt ε α} (hc : Yields P c) (hd : inv d)
    {f : ι → α → ExceptT ε SimM β}
    (hf : ∀ a, c = .ok a → P a → Uniform (fun i => f i a) d inv post') :
    Uniform (fun i => liftM c >>= f i) d inv post' := by
  rcases hc with ⟨a, rfl, ha⟩ | ⟨error, rfl⟩
  · exact hf a rfl ha
  · exact ⟨.error error, d, hd, nofun, fun _ log => ⟨log, rfl⟩⟩

end SimM

def Exploration.withLog (x : Exploration) (log : Array Event) : Exploration :=
  { x with discovery := { x.discovery with log } }

namespace ExploreM

/-- For every solver and log, a computation gives the same value and the same exploration up to
the log, and they satisfy a condition; or it runs out of steps for all of them. -/
def Uniform (c : ι → ExploreM α) (x : Exploration) (post : α → Exploration → Prop) : Prop :=
  (∀ i log, (c i).run (x.withLog log) = .error .outOfSteps) ∨
    ∃ a x', post a x' ∧ ∀ i log, ∃ log', (c i).run (x.withLog log) = .ok (a, x'.withLog log')

variable {x x' : Exploration} {post : α → Exploration → Prop} {post' : β → Exploration → Prop}

theorem Uniform.pure {a : α} (h : post a x) : Uniform (fun _ : ι => Pure.pure a) x post :=
  .inr ⟨a, x, h, fun _ log => ⟨log, rfl⟩⟩

theorem Uniform.andThen {c : ι → ExploreM α} {a : α}
    (hc : ∀ i log, ∃ log', (c i).run (x.withLog log) = .ok (a, x'.withLog log'))
    {f : ι → α → ExploreM β} (hf : Uniform (fun i => f i a) x' post') :
    Uniform (fun i => c i >>= f i) x post' := by
  rcases hf with hstop | ⟨b, x'', hb, hf⟩
  · refine .inl fun i log => ?_
    obtain ⟨log', hrun⟩ := hc i log
    rw [StateT.run_bind, hrun]
    exact hstop i log'
  · refine .inr ⟨b, x'', hb, fun i log => ?_⟩
    obtain ⟨log', hrun⟩ := hc i log
    obtain ⟨log'', hrest⟩ := hf i log'
    refine ⟨log'', ?_⟩
    rw [StateT.run_bind, hrun]
    exact hrest

theorem Uniform.bind {c : ι → ExploreM α} {f : ι → α → ExploreM β} (hc : Uniform c x post)
    (hf : ∀ a x', post a x' → Uniform (fun i => f i a) x' post') :
    Uniform (fun i => c i >>= f i) x post' := by
  rcases hc with hstop | ⟨a, x', ha, hc⟩
  · refine .inl fun i log => ?_
    rw [StateT.run_bind, hstop]
    rfl
  · exact .andThen hc (hf a x' ha)

theorem Uniform.except_bind {c : ι → ExceptT ε ExploreM α} {f : ι → α → ExceptT ε ExploreM β}
    {post : Except ε α → Exploration → Prop} {post' : Except ε β → Exploration → Prop}
    (hc : Uniform (fun i => (c i).run) x post)
    (herror : ∀ error x', post (.error error) x' → post' (.error error) x')
    (hf : ∀ a x', post (.ok a) x' → Uniform (fun i => (f i a).run) x' post') :
    Uniform (fun i => (c i >>= f i).run) x post' := by
  simp only [ExceptT.run_bind]
  refine hc.bind fun result x' hresult => ?_
  cases result with
  | error error => exact .pure (herror error x' hresult)
  | ok a => exact hf a x' hresult

theorem Uniform.except_lift {c : ι → ExploreM α} {f : ι → α → ExceptT ε ExploreM β}
    {post' : Except ε β → Exploration → Prop} (hc : Uniform c x post)
    (hf : ∀ a x', post a x' → Uniform (fun i => (f i a).run) x' post') :
    Uniform (fun i => (liftM (c i) >>= f i).run) x post' := by
  have hrun (i : ι) : (liftM (c i) >>= f i).run = c i >>= fun a => (f i a).run := by
    simp
  simp only [hrun]
  exact hc.bind hf

theorem Uniform.ite {p : Prop} {decidable : ι → Decidable p} {c c' : ι → ExploreM α}
    (hc : p → Uniform c x post) (hc' : ¬ p → Uniform c' x post) :
    Uniform (fun i => @ite _ p (decidable i) (c i) (c' i)) x post := by
  by_cases hp : p
  · simp only [hp, if_true]
    exact hc hp
  · simp only [hp, if_false]
    exact hc' hp

theorem Uniform.get {f : ι → Exploration → ExploreM β}
    (hlog : ∀ i log, f i (x.withLog log) = f i x) (hf : Uniform (fun i => f i x) x post') :
    Uniform (fun i => MonadState.get >>= f i) x post' := by
  have hsame (i : ι) (log : Array Event) :
      (MonadState.get >>= f i).run (x.withLog log) = (f i x).run (x.withLog log) := by
    rw [← hlog i log]
    rfl
  rcases hf with hstop | ⟨b, x', hb, hf⟩
  · exact .inl fun i log => (hsame i log).trans (hstop i log)
  · refine .inr ⟨b, x', hb, fun i log => ?_⟩
    obtain ⟨log', hrun⟩ := hf i log
    exact ⟨log', (hsame i log).trans hrun⟩

theorem Uniform.modify {f : Exploration → Exploration} {g : ι → PUnit → ExploreM β}
    (hlog : ∀ log, f (x.withLog log) = (f x).withLog log)
    (hg : Uniform (fun i => g i ⟨⟩) (f x) post') :
    Uniform (fun i => MonadStateOf.modifyGet (fun x => (⟨⟩, f x)) >>= g i) x post' := by
  refine .andThen (fun _ log => ⟨log, ?_⟩) hg
  rw [← hlog log]
  rfl

theorem Uniform.count {f : Statistics → Statistics} {g : ι → PUnit → ExploreM β}
    (hg : Uniform (fun i => g i ⟨⟩) { x with statistics := f x.statistics } post') :
    Uniform (fun i => Explorer.count f >>= g i) x post' :=
  .modify (fun _ => rfl) hg

theorem Uniform.markVisited {s : State} {g : ι → PUnit → ExploreM β}
    (hg : Uniform (fun i => g i ⟨⟩) { x with visited := s.point :: x.visited } post') :
    Uniform (fun i => Explorer.markVisited s >>= g i) x post' :=
  .modify (fun _ => rfl) hg

theorem Uniform.report {event : ι → Event} {g : ι → PUnit → ExploreM β}
    (hg : Uniform (fun i => g i ⟨⟩) x post') :
    Uniform (fun i => Explorer.report (event i) >>= g i) x post' :=
  .andThen (fun i log => ⟨log.push (event i), rfl⟩) hg

theorem Uniform.modifyProgram {f : Microcode → Microcode} {g : ι → PUnit → ExploreM β}
    (hg : Uniform (fun i => g i ⟨⟩)
      { x with discovery := { x.discovery with program := f x.discovery.program } } post') :
    Uniform (fun i => Explorer.simulate (Simulator.modifyProgram f) >>= g i) x post' :=
  .andThen (fun _ log => ⟨log, rfl⟩) hg

theorem simulate_run {action : SimM α} {a : α} {d : Discovery}
    (h : action.run.run x.discovery = (.ok a, d)) :
    (Explorer.simulate action).run x = .ok (a, { x with discovery := d }) := by
  -- stated for any pair, since the run of `action` does not reduce
  have hset (p : Except Fault α × Discovery) (hp : p = (.ok a, d)) :
      (do set { x with discovery := p.2 }; liftM p.1 : ExploreM α).run x =
          .ok (a, { x with discovery := d }) := by
    subst hp
    rfl
  exact hset _ h

theorem simulate_uniform {c : ι → ExceptT ε SimM α} {d : Discovery} {inv : Discovery → Prop}
    {result : α → Discovery → Prop} (hc : SimM.Uniform c d inv result) (hx : x.discovery = d) :
    Uniform (fun i => Explorer.simulate (c i).run) x fun r x' =>
      ∃ d', x' = { x with discovery := d' } ∧ inv d' ∧ ∀ a, r = .ok a → result a d' := by
  subst hx
  obtain ⟨r, d, hd, hr, hc⟩ := hc
  refine .inr ⟨r, { x with discovery := d }, ⟨d, rfl, hd, hr⟩, fun i log => ?_⟩
  obtain ⟨log', hrun⟩ := hc i log
  exact ⟨log', simulate_run hrun⟩

end ExploreM

end FlowRecovery
