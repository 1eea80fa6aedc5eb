import MavenPom.Shell.Command

/-!
# Running scripts

What a script does in a session. A script that takes more steps than there are is endless.
-/

namespace MavenPom.Shell

namespace Interpreter

/-! ## Loops -/

/-- How a loop goes on after its body. -/
def afterBody : Except Ending Unit → Except Ending Bool
  | .ok () => .ok true
  | .error (.leave loops continued) =>
    if loops ≤ 1 then .ok continued else .error (.leave (loops - 1) continued)
  | .error e => .error e

/-- Runs a test, and then a body as long as the test holds. Its status is that of the last body. -/
def loop (test : Running Bool) (body : Running Unit) :
    Nat → Nat → Session → Except Ending Unit × Session
  | 0, _, s => (.error .endless, s)
  | n + 1, status, s =>
    match StateT.run (ExceptT.run (do step; test)) s with
    | (.error e, s') =>
      match afterBody (.error e) with
      | .error e => (.error e, s')
      | .ok true => loop test body n s'.status s'
      | .ok false => (.ok (), s')
    | (.ok false, s') => (.ok (), { s' with status })
    | (.ok true, s') =>
      match StateT.run (ExceptT.run body) s' with
      | (result, s'') =>
        match afterBody result with
        | .error e => (.error e, s'')
        | .ok false => (.ok (), s'')
        | .ok true => loop test body n s''.status s''

/-- Runs a body with a variable that has one value after the other. -/
def loopOver (name : String) (body : Running Unit) :
    List String → Session → Except Ending Unit × Session
  | [], s => (.ok (), s)
  | value :: rest, s =>
    let once : Running Unit := do
      step
      assign name value
      body
    match StateT.run (ExceptT.run once) s with
    | (result, s') =>
      match afterBody result with
      | .error e => (.error e, s')
      | .ok false => (.ok (), s')
      | .ok true => loopOver name body rest s'

/-- Runs something inside one more loop. -/
def inLoop (action : Running Unit) : Running Unit :=
  ExceptT.mk fun s =>
    let (result, s') := StateT.run (ExceptT.run action) { s with loops := s.loops + 1 }
    (result, { s' with loops := s.loops })

/-! ## Processes beside each other -/

/-- Runs something with a part of the steps that are left. -/
def withShare {α : Type} (share : Nat) (action : Running α) : Running α :=
  ExceptT.mk fun s =>
    let steps := s.steps / share
    let (result, s') := StateT.run (ExceptT.run action) { s with steps }
    (result, { s' with steps := s.steps - (steps - s'.steps) })

/-- Whether a script is one simple command. -/
def isSimple : Script → Bool
  | .simple .. => true
  | _ => false

/-- Finds the program that a script runs first before a process is started for that. -/
def foresee : Script → Running Unit
  | .simple _ _ (word :: _) _ =>
    match plainText? word with
    | some (cs, false) => do
      let s ← get
      let name := String.ofList cs
      if isName cs ∧ (s.functions.get? name).isNone ∧ ¬Builtin.isBuiltin name ∧
          (findProgram s name).isOk then track name
    | _ => pure ()
  | _ => pure ()

/-- Runs a script as a process of its own. -/
def inner (run : Interpreter) (tested : Bool) (script : Script) (change : Process → Process) :
    Running (Outcome × Nat) :=
  fork (fun p => { change p.inner with lone := isSimple script }) (run.toEnd (run tested script))

/-- Gives each script what the one before has written, and says how each has ended. One that never
    ends is ended when it writes to what nothing reads any more. -/
def pipe (run : Interpreter) (tested : Bool) (input : Option Handle) :
    List Script → Running (List (Outcome × Nat))
  | [] => return []
  | [last] => do
    foresee last
    let ended ← run.inner tested last (reading input)
    return [ended]
  | script :: rest => do
    foresee script
    let id ← newSink
    let (outcome, clock) ← withShare 2 (run.inner tested script fun p =>
      { reading input p with streams := (reading input p).streams.insert 1 (.sink id) })
    let text ← takeSink id
    let goesOn := outcome = .endless ∧ ¬text.isEmpty
    let source ← newSource ⟨text, outcome ≠ .endless⟩
    let more ← run.pipe tested (some source) rest
    return (if goesOn then (.code 141, 0) else (outcome, clock)) :: more
where
  reading (input : Option Handle) (p : Process) : Process :=
    match input with
    | some handle => { p with streams := p.streams.insert 0 handle }
    | none => p

/-- Takes over how the parts of a pipeline have ended. Its status is that of the last one. -/
def settlePipe (ended : List (Outcome × Nat)) : Running Unit := do
  (ended.mergeSort fun a b => a.2 ≤ b.2).forM fun (outcome, clock) => settle outcome clock
  setStatus ((ended.getLast?.map fun last => last.1.status).getD 0)

/-- How much later a process starts that nothing waits for, in microseconds. -/
def startingTime : Nat := 1000

/-- Runs a script beside the one that goes on. -/
def beside (run : Interpreter) (tested : Bool) (script : Script) : Running Unit := do
  let id ← newId
  let (outcome, clock) ← withShare 4 (run.inner tested script fun p =>
    { p with
      streams := p.streams.insert 0 .nowhere, job := id, clock := p.clock + startingTime })
  let fate : Fate :=
    { status := outcome.status
      signal := match outcome with
        | .signal number => some number
        | _ => none
      ends := if outcome = .endless then none else some clock }
  let size := match script with
    | .pipeline scripts => scripts.length
    | _ => 1
  modify fun s =>
    { s with
      jobs := ⟨Job.freeNumber s.jobs, id, size, false⟩ :: Job.makeRoom s.jobs, background := some id
      fates := s.fates.insert id fate, status := 0 }

/-! ## Scripts -/

/-- The first script that has a pattern for a text. -/
def selected (run : Interpreter) (text : String) :
    List (List Word × Script) → Running (Option Script)
  | [] => return none
  | (patterns, script) :: rest => do
    let matching ← patterns.anyM fun pattern => do
      return Glob.isMatch (← expandPattern run.inWord pattern) text.toList
    if matching then return some script else run.selected text rest

def isNothing : Script → Bool
  | .nothing => true
  | _ => false

/-- Whether a script succeeds. -/
def succeeds (action : Running Unit) : Running Bool := do
  action
  return (← get).status = 0

/-- Runs a script whose parts are nested less deeply than a limit. Nothing is run where the option
    says so. -/
def run : Nat → Interpreter
  | 0, _, _ => throw .endless
  | n + 1, tested, script => do
    if ¬(← get).hasOption 'n' then
      match script with
      | .nothing => pure ()
      | .simple line assignments words rs => (run n).simple tested line assignments words rs
      | .sequence first second => do
        run n tested first
        run n tested second
      | .both first second => do
        if ← succeeds (run n true first) then run n tested second
      | .either first second => do
        if !(← succeeds (run n true first)) then run n tested second
      | .negation script => do
        setStatus (if ← succeeds (run n true script) then 1 else 0)
      | .pipeline scripts => do
        makeRoom
        settlePipe (← (run n).pipe tested none scripts)
        (run n).deliver
        check tested
      | .choice test first second => do
        if ← succeeds (run n true test) then run n tested first
        else if isNothing second then setStatus 0
        else run n tested second
      | .loop test expected body => do
        let holds : Running Bool := do return (← succeeds (run n true test)) = expected
        inLoop (ExceptT.mk fun s => loop holds (run n tested body) (s.steps + 1) 0 s)
      | .each line name words body => do
        modify fun s => { s with line }
        let values ← (run n).arguments [] words
        if values.isEmpty then setStatus 0
        inLoop (ExceptT.mk (loopOver name (run n tested body) values))
      | .select line word cases => do
        modify fun s => { s with line }
        let text ← expandWhole (run n).inWord word
        match ← (run n).selected text cases with
        | some script => if isNothing script then setStatus 0 else run n tested script
        | none => setStatus 0
      | .define name body => do
        modify fun s =>
          { s with
            functions := s.functions.insert name body, status := 0
            tracked := s.tracked.filter (· != name) }
      | .redirected line (.inner script) rs => do
        modify fun s => { s with line }
        let action := (run n).directed rs ((run n).toEnd (run n tested script)) (pure ())
        makeRoom
        let (outcome, clock) ← fork (fun p => { p.inner with lone := isSimple script }) action
        settle outcome clock
        (run n).deliver
        check tested
      | .redirected line script rs => do
        modify fun s => { s with line }
        (run n).directed rs (run n tested script) (check tested)
      | .inner script => do
        makeRoom
        let (outcome, clock) ← (run n).inner tested script id
        settle outcome clock
        (run n).deliver
        check tested
      | .background script => (run n).beside tested script

/-- How deeply scripts may be nested. -/
def depthLimit : Nat := 1000000

end Interpreter

end MavenPom.Shell
