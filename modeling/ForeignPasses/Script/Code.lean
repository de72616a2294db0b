import ForeignPasses.Script.Basic

/-!
# Running scripts

The code that scripts stand for. What they can do with a module and with a function differs in a
few places, which a shape gathers.
-/

namespace ForeignPasses

/-- What scripts need to know of units with contents `β`. -/
structure Shape (β I : Type) where
  bodies : β → List Body
  edit : (Body → Body) → β → β
  /-- Adds a function, where that is possible. -/
  addFunction : Option (Function → β → β)
  /-- Finds a function by name, and a program for a look-up on it, of the cached result alone or
  not; `none` where there are no functions. -/
  lookup : Option (β → String → Option (Bool → Option Key → I))
  /-- A program that sums up the results of all functions. -/
  sum : Option (β → Option Key → I)

namespace Shape

def function : Shape Body Empty where
  bodies body := [body]
  edit f := f
  addFunction := none
  lookup := none
  sum := none

def lookupIn (f : Function) (cachedOnly : Bool) (key : Option Key) : FunctionInquest :=
  if cachedOnly then .ask (.cached f key) fun (value : Option Int) ↦ .done value
  else .ask (.result f key) fun (value : Option Int) ↦ .done value

def sumResults (key : Option Key) (total : Int) : Functions → FunctionInquest
  | [] => .done (some total)
  | f :: rest => .ask (.result f key) fun (value : Option Int) ↦
    sumResults key (total + value.getD 0) rest

def module : Shape Functions FunctionInquest where
  bodies := List.map CodeUnit.content
  edit f := List.map fun g ↦ g.withContent (f g.content)
  addFunction := some fun f functions ↦ functions ++ [f]
  lookup := some fun functions name ↦ (functions.find? (·.name = name)).map lookupIn
  sum := some fun functions key ↦ sumResults key 0 functions

end Shape

/-! ## Passes -/

section Passes

variable {β I : Type} (shape : Shape β I)

/-- Looks up a result of a function of the unit. -/
def PassAct.lookup (verb : String) (cachedOnly : Bool) (name : String) (key : Option Key)
    (u : CodeUnit β) : Edition β I Unit :=
  match shape.lookup with
  | none => Edition.say ("unsupported " ++ verb)
  | some find =>
    match find u.content name with
    | none => Edition.say ("no function " ++ name)
    | some inner => do
      let value ← Edition.within u (inner cachedOnly key)
      Edition.say (verb ++ " " ++ name ++ " " ++ keyName key ++ "=" ++ shownNumber value)

/-- Performs an act on a unit. The answer is the new contents, and whether the act changed them. -/
def PassAct.perform (u : CodeUnit β) (act : PassAct) : Edition β I (β × Bool) :=
  match act with
  | addFunction name body =>
    match shape.addFunction with
    | none => do
      Edition.say "unsupported add_function"
      return (u.content, false)
    | some add => do
      let id ← Edition.freshUnit
      return (add ⟨id, name, body⟩ u.content, true)
  | result key => do
    let value ← Edition.result u key
    Edition.say ("result " ++ keyName key ++ "=" ++ shownNumber value)
    return (u.content, false)
  | cached key => do
    let value ← Edition.cached u key
    Edition.say ("cached " ++ keyName key ++ "=" ++ shownNumber value)
    return (u.content, false)
  | functionResult name key => do
    PassAct.lookup shape "fam_result" false name key u
    return (u.content, false)
  | functionCached name key => do
    PassAct.lookup shape "fam_cached" true name key u
    return (u.content, false)
  | register key analysis context => do
    let registered ← Edition.register key analysis context
    Edition.say ("register " ++ keyName key ++ "=" ++ toString registered)
    return (u.content, false)
  | current => do
    Edition.say (shownIdentities (← Edition.identities))
    return (u.content, false)
  | act =>
    let content := shape.edit act.edit u.content
    return (content, decide (shape.bodies content ≠ shape.bodies u.content))

/-- Performs acts in order. -/
def PassScript.performAll (u : CodeUnit β) (changed : Bool) :
    List PassAct → Edition β I (β × Bool)
  | [] => return (u.content, changed)
  | act :: rest => do
    let (content, now) ← act.perform shape u
    performAll (u.withContent content) (changed || now) rest

/-- What a foreign pass reports. -/
def Claim.status (changed : Bool) : Claim → Status
  | all => .allPreserved
  | auto => if changed then .nonePreserved else .allPreserved
  | _ => .nonePreserved

/-- What a native pass reports. -/
def Claim.preserved (changed : Bool) : Claim → Preserved
  | all => .all
  | auto => if changed then .none else .all
  | .keys ks => .ofKeys ks
  | none => .none

def PassScript.foreign (s : PassScript) (context : Option String) (u : CodeUnit β) :
    Edition β I (β × Status) := do
  Edition.say ("pass " ++ s.label ++ " on " ++ u.name ++ " " ++ shownContext context)
  let (content, changed) ← performAll shape u false s.acts
  return (content, s.claim.status changed)

def PassScript.native (s : PassScript) (u : CodeUnit β) : Edition β I (β × Preserved) := do
  Edition.say ("native pass " ++ s.label ++ " on " ++ u.name)
  let (content, changed) ← performAll shape u false s.acts
  return (content, s.claim.preserved changed)

end Passes

/-! ## Analyses -/

section Analyses

variable {β I : Type} (shape : Shape β I)

/-- The value of a summand for a unit. -/
def Summand.value (context : Option String) (u : CodeUnit β) : Summand → Inquest β I Int
  | const value => return value
  | length weight => return weight * (shape.bodies u.content).flatten.length
  | functions weight => return weight * (shape.bodies u.content).length
  | count i weight => return weight * (shape.bodies u.content).flatten.count i
  | .context weight => return weight * (context.getD "").utf8ByteSize
  | result key weight => do
    let value ← Inquest.result u key
    return weight * value.getD 0
  | cached key weight default => do
    match ← Inquest.cached u key with
    | some value => return weight * value
    | none => return default
  | native index weight => return weight * (← Inquest.native u index)
  | functionSum key weight =>
    match shape.sum with
    | none => return 0
    | some sum => do
      let value ← Inquest.within u (sum u.content key)
      return weight * value.getD 0
  | current => do
    Inquest.say (shownIdentities (← Inquest.identities))
    return 0

/-- The sum of summands, evaluated in order. -/
def AnalysisScript.total (context : Option String) (u : CodeUnit β) (total : Int) :
    List Summand → Inquest β I Int
  | [] => return wrap total
  | term :: rest => do
    let value ← term.value shape context u
    AnalysisScript.total context u (total + value) rest

def AnalysisScript.foreign (s : AnalysisScript) (context : Option String) (u : CodeUnit β) :
    Inquest β I (Handed Int) := do
  Inquest.say ("analysis " ++ s.label ++ " on " ++ u.name ++ " " ++ shownContext context)
  let total ← AnalysisScript.total shape context u 0 s.terms
  match s.output with
  | .owned =>
    return .owned total (some ("release " ++ s.label ++ "(" ++ u.name ++ ")=" ++ toString total))
  | .borrowed => return .borrowed total
  | .null => return .null

def AnalysisScript.native (s : AnalysisScript) (u : CodeUnit β) : Inquest β I Int := do
  Inquest.say ("native analysis " ++ s.label ++ " on " ++ u.name)
  AnalysisScript.total shape none u 0 s.terms

/-- What a native analysis says when it is invalidated. -/
def AnalysisScript.invalidated (s : AnalysisScript) (u : CodeUnit β) (preserved : Preserved) :
    String :=
  "invalidate " ++ s.label ++ " on " ++ u.name ++ " kept=" ++ String.intercalate "," preserved.names

end Analyses

/-! ## Callbacks -/

namespace CallbackScript

/-- Adds passes in order; `level` is the name of the level, empty where there is none. -/
def add (level : String) : List Addition → Assembly Unit
  | [] => return
  | a :: rest => do
    unless a.unlessLevels.contains level do
      .ask (.append a.name a.pass a.context) .done
    add level rest

def extend (s : CallbackScript) (context : Option String) (level : Level) : Assembly Unit :=
  .ask .isEmpty fun (empty : Bool) ↦
  .ask (.say ("ep " ++ s.label ++ " " ++ level.name ++ " " ++ shownContext context ++ " empty=" ++
    toString empty)) fun _ ↦
  add level.name s.additions

def recognize (s : CallbackScript) (context : Option String) (name : String) : Assembly Bool :=
  .ask (.say ("parse " ++ s.label ++ " " ++ name ++ " " ++ shownContext context)) fun _ ↦
  if s.names.contains name || s.names.contains "*" then do
    add "" s.additions
    return s.accept
  else return false

def enlist : List Enlistment → Enrolment
  | [] => return
  | e :: rest =>
    .ask (.register e.key e.analysis e.context) fun (registered : Bool) ↦
    .ask (.say ("register " ++ keyName e.key ++ "=" ++ toString registered)) fun _ ↦
    enlist rest

def enrol (s : CallbackScript) (context : Option String) : Enrolment :=
  .ask (.say ("reg " ++ s.label ++ " " ++ shownContext context)) fun _ ↦ enlist s.enlistments

end CallbackScript

/-! ## All of it -/

namespace Scripts

def pass (s : Scripts) (entry : Entry) : PassScript := s.passes[entry]?.getD default

def analysis (s : Scripts) (entry : Entry) : AnalysisScript := s.analyses[entry]?.getD default

def callback (s : Scripts) (entry : Entry) : CallbackScript := s.callbacks[entry]?.getD default

/-- What the scripts do with units of a shape. -/
def behaviour {β I : Type} (s : Scripts) (shape : Shape β I) : Behaviour β I where
  analysis entry := (s.analysis entry).foreign shape
  native entry := (s.analysis entry).native shape
  onInvalidated entry := (s.analysis entry).invalidated
  pass entry := (s.pass entry).foreign shape
  nativePass entry := (s.pass entry).native shape

def code (s : Scripts) : Code where
  functions := s.behaviour .function
  modules := s.behaviour .module
  nativeName entry := (s.pass entry).label
  extension entry := (s.callback entry).extend
  parsing entry := (s.callback entry).recognize
  enrolment entry := (s.callback entry).enrol

end Scripts

end ForeignPasses
