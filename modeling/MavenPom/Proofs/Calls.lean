import MavenPom.Proofs.Chain

/-!
# The turns that a chain gives

In which order a chain calls its commands, and what becomes of their answers. A run is recorded by
having every command note its turns in the state, which changes nothing else about it. On the way
in, commands are called in the order of the chain, up to the first one that handles the request or
fails. On the way out, those that were called are called again from the last one on, up to the first
one that ends it or fails. Nothing is called after a failure on the way in.
-/

namespace MavenPom.Chain

open MavenPom.Action

variable {σ ε α : Type}

/-! ## Recording a run -/

/-- What happens in the course of a run: the command at a place gives an answer on the way in or on
    the way out, or the state is marked as modified. -/
inductive Turn (ε : Type) where
  | executed (place : Nat) (answer : Except ε Outcome)
  | marked
  | postProcessed (place : Nat) (answer : Except ε Bool)

/-- A turn, the state that it is taken in, and the one that it leaves. -/
structure Event (σ ε : Type) where
  turn : Turn ε
  before : σ
  after : σ

/-- A state, and what has happened so far. -/
structure Recorded (σ ε : Type) where
  state : σ
  events : List (Event σ ε)

/-- The record after a turn that leaves the state `s`. -/
def Recorded.note (r : Recorded σ ε) (turn : Turn ε) (s : σ) : Recorded σ ε :=
  ⟨s, r.events ++ [⟨turn, r.state, s⟩]⟩

instance [Modifiable σ] : Modifiable (Recorded σ ε) where
  isMutation r := Modifiable.isMutation r.state
  markModified r := r.note .marked (Modifiable.markModified r.state)

/-- The step, noted as a turn. -/
def noted (turn : Except ε α → Turn ε) (a : Action σ ε α) : Action (Recorded σ ε) ε α :=
  ExceptT.mk fun r =>
    let (answer, s) := StateT.run (ExceptT.run a) r.state
    (answer, r.note (turn answer) s)

/-- A command and its place in a chain. -/
abbrev Placed (σ ε : Type) := Command σ ε × Nat

/-- The command with its turns noted. -/
def Placed.recorded (c : Placed σ ε) : Command (Recorded σ ε) ε where
  name := c.1.name
  isSupport := c.1.isSupport
  execute := noted (.executed c.2) c.1.execute
  postProcess := noted (.postProcessed c.2) c.1.postProcess

/-- The outcome of running a chain with all turns noted, and the record. -/
def runRecorded [Modifiable σ] (commands : List (Command σ ε)) (s : σ) :
    Except ε Bool × Recorded σ ε :=
  StateT.run (ExceptT.run (run (commands.zipIdx.map Placed.recorded))) ⟨s, []⟩

/-! ## Records -/

/-- What happens leads from one state to the other, each turn from where the one before has left. -/
def Threaded : σ → List (Event σ ε) → σ → Prop
  | s, [], s' => s' = s
  | s, event :: events, s' => event.before = s ∧ Threaded event.after events s'

theorem Threaded.append {s s' s'' : σ} {events events' : List (Event σ ε)}
    (h : Threaded s events s') (h' : Threaded s' events' s'') :
    Threaded s (events ++ events') s'' := by
  induction events generalizing s with
  | nil =>
    obtain rfl : s' = s := h
    exact h'
  | cons event events ih => exact ⟨h.1, ih h.2⟩

/-- The turn is what the command at its place does in the state that the turn is taken in. -/
def Event.Of [Modifiable σ] (event : Event σ ε) (commands : List (Command σ ε)) : Prop :=
  match event.turn with
  | .executed place answer => ∃ c, commands[place]? = some c ∧
      StateT.run (ExceptT.run c.execute) event.before = (answer, event.after)
  | .marked => event.after = Modifiable.markModified event.before
  | .postProcessed place answer => ∃ c, commands[place]? = some c ∧
      StateT.run (ExceptT.run c.postProcess) event.before = (answer, event.after)

/-- A command handles the request in this turn, and that changes what the request is about. -/
def Event.Modifies [Modifiable σ] (event : Event σ ε) (commands : List (Command σ ε)) : Prop :=
  ∃ place c, event.turn = .executed place (.ok .handled) ∧ commands[place]? = some c ∧
    c.isSupport = false ∧ Modifiable.isMutation event.after = true

/-! ## Passes -/

/-- The answers of a pass over `n` commands: it goes on to the next one as long as the answer is
    `goOn`, and stops at the first that is another answer or a failure. -/
structure Pass (goOn : α) (n : Nat) (answers : List (Except ε α)) : Prop where
  length_le : answers.length ≤ n
  goes_on : ∀ answer ∈ answers.dropLast, answer = .ok goOn
  stops : answers.length < n → ∃ answer ∈ answers.getLast?, answer ≠ .ok goOn

/-- The answer that a pass ends with. -/
def final (goOn : α) (answers : List (Except ε α)) : Except ε α :=
  answers.getLast?.getD (.ok goOn)

namespace Pass

variable {goOn : α} {n : Nat} {answer : Except ε α} {answers : List (Except ε α)}

theorem nil : Pass goOn 0 ([] : List (Except ε α)) :=
  ⟨Nat.le_refl _, by simp, fun h => absurd h (Nat.lt_irrefl _)⟩

theorem stop (h : answer ≠ .ok goOn) : Pass goOn (n + 1) [answer] :=
  ⟨Nat.succ_le_succ (Nat.zero_le _), by simp, fun _ => ⟨answer, rfl, h⟩⟩

theorem cons (h : Pass goOn n answers) : Pass goOn (n + 1) (.ok goOn :: answers) where
  length_le := Nat.succ_le_succ h.length_le
  goes_on answer hanswer := by
    cases answers with
    | nil => cases hanswer
    | cons next answers =>
      rcases List.mem_cons.mp hanswer with rfl | hanswer
      · rfl
      · exact h.goes_on answer hanswer
  stops hlt := by
    obtain ⟨answer, hlast, hne⟩ := h.stops (Nat.lt_of_succ_lt_succ hlt)
    exact ⟨answer, by rw [List.getLast?_cons, hlast]; rfl, hne⟩

/-- An answer that does not let the pass go on is the one that it ends with. -/
theorem final_eq_iff (h : Pass goOn n answers) (hne : answer ≠ .ok goOn) :
    final goOn answers = answer ↔ answer ∈ answers := by
  rcases List.eq_nil_or_concat answers with rfl | ⟨front, last, rfl⟩
  · simp [final, hne.symm]
  · have hfront := h.goes_on
    rw [List.concat_eq_append, List.dropLast_concat] at hfront
    rw [final, List.concat_eq_append, List.getLast?_concat, Option.getD_some, List.mem_append,
      List.mem_singleton]
    refine ⟨fun heq => .inr heq.symm, ?_⟩
    rintro (hmem | rfl)
    · exact absurd (hfront answer hmem) hne
    · rfl

end Pass

theorem final_cons (goOn : α) (answers : List (Except ε α)) :
    final goOn (.ok goOn :: answers) = final goOn answers := by
  cases answers with
  | nil => rfl
  | cons next answers => rw [final, final, List.getLast?_cons_cons]

/-! ## The way in -/

section Passes

variable [Modifiable σ] {commands : List (Command σ ε)} {cs : List (Placed σ ε)}

omit [Modifiable σ] in
theorem run_noted (turn : Except ε α → Turn ε) (a : Action σ ε α) (r : Recorded σ ε) :
    StateT.run (ExceptT.run (noted turn a)) r =
      ((StateT.run (ExceptT.run a) r.state).1,
        r.note (turn (StateT.run (ExceptT.run a) r.state).1)
          (StateT.run (ExceptT.run a) r.state).2) := rfl

omit [Modifiable σ] in
theorem execute_recorded (c : Placed σ ε) :
    c.recorded.execute = noted (.executed c.2) c.1.execute := rfl

omit [Modifiable σ] in
theorem postProcess_recorded (c : Placed σ ε) :
    c.recorded.postProcess = noted (.postProcessed c.2) c.1.postProcess := rfl

/-- What happens on the way in from `s` to `s'`, among commands of a chain. -/
structure WayIn (commands : List (Command σ ε)) (cs : List (Placed σ ε)) (s : σ)
    (answers : List (Except ε Outcome)) (events : List (Event σ ε)) (s' : σ) : Prop where
  pass : Pass .notApplicable cs.length answers
  threaded : Threaded s events s'
  of : ∀ event ∈ events, event.Of commands
  turns : ∃ marks : Bool,
    events.map (·.turn) = List.zipWith .executed (cs.map (·.2)) answers ++
      (if marks then [.marked] else []) ∧
    (marks = true ↔ ∃ event ∈ events, event.Modifies commands)

/-- The commands that have been called on the way in, the last one first, and whether the
    request has been handled. -/
def reached (cs ran : List (Placed σ ε)) (answers : List (Except ε Outcome)) :
    Except ε (List (Placed σ ε) × Bool) :=
  (final .notApplicable answers).map fun outcome =>
    ((cs.take answers.length).reverse ++ ran, decide (outcome = .handled))

/-- The way in, with its turns noted and without. -/
theorem wayIn_forward (hcs : ∀ c ∈ cs, commands[c.2]? = some c.1) (ran : List (Placed σ ε))
    (r : Recorded σ ε) : ∃ answers events s', WayIn commands cs r.state answers events s' ∧
      StateT.run (ExceptT.run (forward (ran.map (·.recorded)) (cs.map (·.recorded)))) r =
        ((reached cs ran answers).map fun p => (p.1.map (·.recorded), p.2),
          (⟨s', r.events ++ events⟩ : Recorded σ ε)) ∧
      StateT.run (ExceptT.run (forward (ran.map (·.1)) (cs.map (·.1)))) r.state =
        ((reached cs ran answers).map fun p => (p.1.map (·.1), p.2), s') := by
  induction cs generalizing ran r with
  | nil =>
    refine ⟨[], [], r.state, ⟨.nil, rfl, by simp, false, rfl, by simp⟩, ?_, rfl⟩
    rw [List.append_nil]
    rfl
  | cons c cs ih =>
    obtain ⟨hc, hcs⟩ := List.forall_mem_cons.mp hcs
    rw [List.map_cons, List.map_cons, forward, forward, run_bind, run_bind]
    rw [execute_recorded, run_noted]
    cases hrun : StateT.run (ExceptT.run c.1.execute) r.state with
    | mk answer s₁ =>
      have hof : (⟨.executed c.2 answer, r.state, s₁⟩ : Event σ ε).Of commands := ⟨c.1, hc, hrun⟩
      cases answer with
      | error e =>
        refine ⟨[.error e], [⟨.executed c.2 (.error e), r.state, s₁⟩], s₁,
          ⟨.stop (by simp), ⟨rfl, rfl⟩, by simpa using hof, false, by simp, ?_⟩, rfl, rfl⟩
        simp [Event.Modifies]
      | ok outcome =>
        cases outcome with
        | handled =>
          -- The mark is a turn of its own, in the state that the command has left.
          have hmodifies : (∃ event ∈ [(⟨.executed c.2 (.ok .handled), r.state, s₁⟩ : Event σ ε)],
              event.Modifies commands) ↔ (!c.1.isSupport && Modifiable.isMutation s₁) = true := by
            simp [Event.Modifies, hc]
          have hnoted : noteHandled c.recorded (r.note (.executed c.2 (.ok .handled)) s₁) =
              if !c.1.isSupport && Modifiable.isMutation s₁ then
                (r.note (.executed c.2 (.ok .handled)) s₁).note .marked
                  (Modifiable.markModified s₁)
              else r.note (.executed c.2 (.ok .handled)) s₁ := rfl
          have hplain : noteHandled c.1 s₁ =
              if !c.1.isSupport && Modifiable.isMutation s₁ then Modifiable.markModified s₁
              else s₁ := rfl
          cases hmarks : !c.1.isSupport && Modifiable.isMutation s₁ with
          | false =>
            rw [hmarks] at hmodifies
            rw [hmarks, if_neg (by simp)] at hnoted hplain
            refine ⟨[.ok .handled], [⟨.executed c.2 (.ok .handled), r.state, s₁⟩], s₁,
              ⟨.stop (by simp), ⟨rfl, rfl⟩, by simpa using hof, false, by simp, hmodifies.symm⟩,
              congrArg (Prod.mk _) hnoted, congrArg (Prod.mk _) hplain⟩
          | true =>
            rw [hmarks] at hmodifies
            rw [hmarks, if_pos rfl] at hnoted hplain
            refine ⟨[.ok .handled], [⟨.executed c.2 (.ok .handled), r.state, s₁⟩,
                ⟨.marked, s₁, Modifiable.markModified s₁⟩], Modifiable.markModified s₁,
              ⟨.stop (by simp), ⟨rfl, rfl, rfl⟩, by simpa using ⟨hof, rfl⟩, true, by simp, ?_⟩,
              congrArg (Prod.mk _) (hnoted.trans ?_), congrArg (Prod.mk _) hplain⟩
            · obtain ⟨event, hevent, hmod⟩ := hmodifies.mpr rfl
              exact iff_of_true rfl ⟨event, List.mem_cons.mpr (.inl (List.mem_singleton.mp hevent)),
                hmod⟩
            · simp [Recorded.note]
        | notApplicable =>
          obtain ⟨answers, events, s', hin, hrecorded, hplain⟩ := ih hcs (c :: ran)
            (r.note (.executed c.2 (.ok .notApplicable)) s₁)
          obtain ⟨marks, hturns, hmarks⟩ := hin.turns
          have hreached : reached (c :: cs) ran (.ok .notApplicable :: answers) =
              reached cs (c :: ran) answers := by
            simp [reached, final_cons]
          refine ⟨.ok .notApplicable :: answers,
            ⟨.executed c.2 (.ok .notApplicable), r.state, s₁⟩ :: events, s',
            ⟨hin.pass.cons, ⟨rfl, hin.threaded⟩, List.forall_mem_cons.mpr ⟨hof, hin.of⟩, marks,
              ?_, ?_⟩, ?_, ?_⟩
          · simp [hturns]
          · simp [hmarks, Event.Modifies]
          · rw [hreached]
            simpa [Recorded.note] using hrecorded
          · rw [hreached]
            exact hplain

/-! ## The way out -/

/-- What happens on the way out from `s` to `s'`, among commands of a chain. -/
structure WayOut (commands : List (Command σ ε)) (cs : List (Placed σ ε)) (s : σ)
    (answers : List (Except ε Bool)) (events : List (Event σ ε)) (s' : σ) : Prop where
  pass : Pass false cs.length answers
  threaded : Threaded s events s'
  of : ∀ event ∈ events, event.Of commands
  turns : events.map (·.turn) = List.zipWith .postProcessed (cs.map (·.2)) answers

/-- The request is not handled on the way out. -/
theorem WayOut.not_modifies {s s' : σ} {ends : List (Except ε Bool)}
    {events : List (Event σ ε)} (h : WayOut commands cs s ends events s') {event : Event σ ε}
    (hevent : event ∈ events) : ¬ event.Modifies commands := by
  rintro ⟨place, c, hturn, -⟩
  have hmem : event.turn ∈ List.zipWith .postProcessed (cs.map (·.2)) ends :=
    h.turns ▸ List.mem_map_of_mem hevent
  rw [hturn] at hmem
  obtain ⟨i, hi, heq⟩ := List.mem_iff_getElem.mp hmem
  rw [List.getElem_zipWith] at heq
  cases heq

/-- The way out, with its turns noted and without. -/
theorem wayOut_backward (hcs : ∀ c ∈ cs, commands[c.2]? = some c.1) (r : Recorded σ ε) :
    ∃ answers events s', WayOut commands cs r.state answers events s' ∧
      StateT.run (ExceptT.run (backward (cs.map (·.recorded)))) r =
        ((final false answers).map fun _ => (), (⟨s', r.events ++ events⟩ : Recorded σ ε)) ∧
      StateT.run (ExceptT.run (backward (cs.map (·.1)))) r.state =
        ((final false answers).map fun _ => (), s') := by
  induction cs generalizing r with
  | nil =>
    refine ⟨[], [], r.state, ⟨.nil, rfl, by simp, rfl⟩, ?_, rfl⟩
    rw [List.append_nil]
    rfl
  | cons c cs ih =>
    obtain ⟨hc, hcs⟩ := List.forall_mem_cons.mp hcs
    rw [List.map_cons, List.map_cons, backward, backward, run_bind, run_bind]
    rw [postProcess_recorded, run_noted]
    cases hrun : StateT.run (ExceptT.run c.1.postProcess) r.state with
    | mk answer s₁ =>
      have hof : (⟨.postProcessed c.2 answer, r.state, s₁⟩ : Event σ ε).Of commands :=
        ⟨c.1, hc, hrun⟩
      cases answer with
      | error e =>
        exact ⟨[.error e], [⟨.postProcessed c.2 (.error e), r.state, s₁⟩], s₁,
          ⟨.stop (by simp), ⟨rfl, rfl⟩, by simpa using hof, by simp⟩, rfl, rfl⟩
      | ok ends =>
        cases ends with
        | true =>
          exact ⟨[.ok true], [⟨.postProcessed c.2 (.ok true), r.state, s₁⟩], s₁,
            ⟨.stop (by simp), ⟨rfl, rfl⟩, by simpa using hof, by simp⟩, rfl, rfl⟩
        | false =>
          obtain ⟨answers, events, s', hout, hrecorded, hplain⟩ :=
            ih hcs (r.note (.postProcessed c.2 (.ok false)) s₁)
          refine ⟨.ok false :: answers, ⟨.postProcessed c.2 (.ok false), r.state, s₁⟩ :: events, s',
            ⟨hout.pass.cons, ⟨rfl, hout.threaded⟩, List.forall_mem_cons.mpr ⟨hof, hout.of⟩,
              by simp [hout.turns]⟩, ?_, ?_⟩
          · rw [final_cons]
            simpa [Recorded.note] using hrecorded
          · rw [final_cons]
            exact hplain

end Passes

/-! ## Whole runs -/

/-- A run of a chain of commands from `s` comes to `result` and is recorded as `r`. On the way in,
    the commands are called in the order of the chain, up to the first one that handles the request
    or fails. The state is marked as modified after that, if a command that is no support has
    handled a request for a change. Where nothing has failed, the commands that have been called are
    called on the way out from the last one on, up to the first one that ends it or fails. Each turn
    is taken in the state that the one before has left. -/
structure Disciplined [Modifiable σ] (commands : List (Command σ ε)) (s : σ)
    (result : Except ε Bool) (r : Recorded σ ε) : Prop where
  threaded : Threaded s r.events r.state
  of : ∀ event ∈ r.events, event.Of commands
  passes : ∃ (answers : List (Except ε Outcome)) (marks : Bool) (ends : List (Except ε Bool)),
    r.events.map (·.turn) =
      List.zipWith .executed (List.range commands.length) answers ++
      ((if marks then [.marked] else []) ++
        List.zipWith .postProcessed (List.range answers.length).reverse ends) ∧
    Pass .notApplicable commands.length answers ∧
    (marks = true ↔ ∃ event ∈ r.events, event.Modifies commands) ∧
    ((∃ e, .error e ∈ answers) → ends = []) ∧
    ((∀ e, .error e ∉ answers) → Pass false answers.length ends) ∧
    (∀ e, result = .error e ↔ .error e ∈ answers ∨ .error e ∈ ends) ∧
    (result = .ok true ↔ .ok .handled ∈ answers ∧ (∀ e, .error e ∉ answers) ∧
      ∀ e, .error e ∉ ends)

theorem mem_zipIdx {commands : List (Command σ ε)} {c : Placed σ ε} (h : c ∈ commands.zipIdx) :
    commands[c.2]? = some c.1 := by
  obtain ⟨c, place⟩ := c
  exact List.mem_zipIdx_iff_getElem?.mp h

/-- The commands called on the way in are those at the first places. -/
theorem map_snd_called {commands : List (Command σ ε)} {n : Nat} (h : n ≤ commands.length) :
    (commands.zipIdx.take n).reverse.map (fun c => c.2) = (List.range n).reverse := by
  rw [List.map_reverse, List.map_take, List.zipIdx_map_snd, ← List.range_eq_range',
    List.take_range, Nat.min_eq_left h]

/-- A run is the way in and, unless that fails, the way out. -/
theorem run_run [Modifiable σ] (commands : List (Command σ ε)) (s : σ) :
    StateT.run (ExceptT.run (run commands)) s =
      match StateT.run (ExceptT.run (forward [] commands)) s with
      | (.error e, s') => (.error e, s')
      | (.ok (ran, handled), s') =>
        ((StateT.run (ExceptT.run (backward ran)) s').1.map fun _ => handled,
          (StateT.run (ExceptT.run (backward ran)) s').2) := by
  rw [run, run_bind]
  cases StateT.run (ExceptT.run (forward [] commands)) s with
  | mk outcome s₁ =>
    cases outcome with
    | error e => rfl
    | ok reached =>
      obtain ⟨ran, handled⟩ := reached
      dsimp only
      rw [run_bind]
      cases StateT.run (ExceptT.run (backward ran)) s₁ with
      | mk answer s₂ => cases answer <;> rfl

/-- A request that nothing on the way in has failed for is handled or not, as the last answer
    says. -/
theorem Pass.final_eq_ok {n : Nat} {answers : List (Except ε Outcome)} {outcome : Outcome}
    (h : Pass .notApplicable n answers) (hfinal : final .notApplicable answers = .ok outcome) :
    (∀ e, .error e ∉ answers) ∧ (outcome = .handled ↔ .ok .handled ∈ answers) := by
  refine ⟨fun e he => ?_, ?_⟩
  · rw [(h.final_eq_iff (by simp)).mpr he] at hfinal
    cases hfinal
  · rw [← h.final_eq_iff (by simp), hfinal]
    simp

/-- Every run of a chain keeps the discipline, whatever its commands do. Noting the turns changes
    neither what the run comes to nor the state that it leaves. -/
theorem disciplined_runRecorded [Modifiable σ] (commands : List (Command σ ε)) (s : σ) :
    StateT.run (ExceptT.run (run commands)) s =
        ((runRecorded commands s).1, (runRecorded commands s).2.state) ∧
      Disciplined commands s (runRecorded commands s).1 (runRecorded commands s).2 := by
  have hplaces : ∀ c ∈ commands.zipIdx, commands[c.2]? = some c.1 := fun c => mem_zipIdx
  obtain ⟨answers, events, s₁, hin, hrecorded, hplain⟩ := wayIn_forward hplaces [] ⟨s, []⟩
  obtain ⟨marks, hturns, hmarks⟩ := hin.turns
  have hpass : Pass .notApplicable commands.length answers := by simpa using hin.pass
  rw [List.zipIdx_map_snd, ← List.range_eq_range'] at hturns
  rw [List.zipIdx_map_fst] at hplain
  rw [List.map_nil] at hrecorded hplain
  cases hfinal : final .notApplicable answers with
  | error e =>
    -- The way in has failed, and there is none out.
    have he : .error e ∈ answers := (hpass.final_eq_iff (by simp)).mp hfinal
    rw [reached, hfinal] at hrecorded hplain
    have hrun : StateT.run (ExceptT.run (run commands)) s = (.error e, s₁) := by
      rw [run_run, hplain]
      rfl
    have hnoted : runRecorded commands s = (.error e, ⟨s₁, events⟩) := by
      rw [runRecorded, run_run, hrecorded]
      rfl
    rw [hrun, hnoted]
    refine ⟨rfl, hin.threaded, hin.of, answers, marks, [], by simpa using hturns, hpass, hmarks,
      fun _ => rfl, fun hnone => absurd he (hnone e), fun e' => ?_, ?_⟩
    · rw [← hpass.final_eq_iff (by simp), hfinal]
      simp
    · exact ⟨by simp, fun h => absurd he (h.2.1 e)⟩
  | ok outcome =>
    obtain ⟨hnone, houtcome⟩ := hpass.final_eq_ok hfinal
    rw [reached, hfinal] at hrecorded hplain
    have hcalls : ∀ c ∈ (commands.zipIdx.take answers.length).reverse,
        commands[c.2]? = some c.1 :=
      fun c hc => hplaces c (List.mem_of_mem_take (List.mem_reverse.mp hc))
    obtain ⟨ends, events', s₂, hout, hrecorded', hplain'⟩ := wayOut_backward hcalls ⟨s₁, events⟩
    have hcalled : (commands.zipIdx.take answers.length).length = answers.length := by
      rw [List.length_take, List.length_zipIdx, Nat.min_eq_left hpass.length_le]
    have hends : Pass false answers.length ends := by
      have := hout.pass
      rwa [List.length_reverse, hcalled] at this
    have hturns' := hout.turns
    rw [map_snd_called hpass.length_le] at hturns'
    have hrun : StateT.run (ExceptT.run (run commands)) s =
        ((final false ends).map fun _ => decide (outcome = .handled), s₂) := by
      rw [run_run, hplain]
      simp only [Except.map, List.append_nil]
      rw [hplain']
      cases final false ends <;> rfl
    have hnoted : runRecorded commands s =
        ((final false ends).map fun _ => decide (outcome = .handled),
          ⟨s₂, events ++ events'⟩) := by
      rw [runRecorded, run_run, hrecorded]
      simp only [Except.map, List.append_nil, List.nil_append]
      rw [hrecorded']
      cases final false ends <;> rfl
    rw [hrun, hnoted]
    refine ⟨rfl, hin.threaded.append hout.threaded, List.forall_mem_append.mpr ⟨hin.of, hout.of⟩,
      answers, marks, ends, ?_, hpass, ?_, ?_, fun _ => hends, fun e => ?_, ?_⟩
    · rw [List.map_append, hturns, hturns', List.append_assoc]
    · rw [hmarks]
      refine exists_congr fun event => and_congr_left fun hevent => ?_
      rw [List.mem_append, or_iff_left fun hmem => hout.not_modifies hmem hevent]
    · rintro ⟨e, he⟩
      exact absurd he (hnone e)
    · rw [← hends.final_eq_iff (by simp)]
      cases final false ends <;> simp [Except.map, hnone]
    · have hfailed : ∀ e, .error e ∈ ends ↔ final false ends = .error e := fun e =>
        (hends.final_eq_iff (by simp)).symm
      simp only [← houtcome, hfailed]
      cases final false ends <;> simp [Except.map, hnone]

end MavenPom.Chain
