/-! The command line of `tape-tool`: what a list of arguments asks for. Options may
stand between the other arguments; two dashes end them. The settings option is known
before and behind the name of a command, and the later of the two counts; within one
level every option may be given once. Block numbers count from one. -/

namespace Cassette

inductive Command
  | list (tape : String) (json : Bool)
  | rename (tape : String) (block : Nat) (name : String)
  | move (tape : String) (before : Nat) (blocks : List Nat)
  | remove (tape : String) (blocks : List Nat)
  | play (tape : String) (seconds : Nat)
  deriving DecidableEq, Repr

/-- A command and the file its settings are read from. -/
structure Invocation where
  settings : Option String
  command : Command
  deriving DecidableEq, Repr

/-- What the arguments ask for. -/
inductive Request
  | run (invocation : Invocation)
  | version
  | help
  /-- The arguments make no sense. -/
  | misuse
  deriving DecidableEq, Repr

namespace Command

/-- The seconds that `play` goes on for if nothing else is said. -/
def standardSeconds : Nat := 3600

/-- A number in decimal digits, with a plus in front if you like, that fits 64 bits. -/
def number? (s : String) : Option Nat :=
  let digits :=
    match s.toList with
    | '+' :: rest => rest
    | chars => chars
  if digits.isEmpty || !digits.all Char.isDigit then none
  else
    let n := digits.foldl (fun n c => 10 * n + (c.toNat - '0'.toNat)) 0
    if n < UInt64.size then some n else none

/-- The name of a file; it may not be empty. -/
def file? (s : String) : Option String := if s.isEmpty then none else some s

/-- The verbs. -/
inductive Verb
  | list | rename | move | remove | play
  deriving DecidableEq, Repr

def Verb.ofName? : String → Option Verb
  | "list" => some list
  | "rename" => some rename
  | "move" => some move
  | "remove" => some remove
  | "play" => some play
  | _ => none

/-- Whether a verb takes this argument in this place, counted from zero: the tape in the
first, then numbers of blocks, for `rename` only one and then a name. -/
def Verb.takes (verb : Verb) (place : Nat) (arg : String) : Bool :=
  match verb, place with
  | _, 0 => (file? arg).isSome
  | .rename, 1 | .move, _ | .remove, _ => (number? arg).isSome
  | .rename, 2 => true
  | _, _ => false

/-- The options and other arguments seen so far; the latter in order. -/
structure Seen where
  settings : Option String
  json : Bool
  seconds : Option Nat
  arguments : List String

/-- An argument by its shape. -/
inductive Shape
  | escape
  /-- A long option and the value attached to it. -/
  | long (name : String) (value : Option String)
  | short (letters : List Char)
  | plain

def shape (arg : String) : Shape :=
  match arg.toList with
  | ['-', '-'] => .escape
  | '-' :: '-' :: rest =>
    let name := String.ofList (rest.takeWhile (· != '='))
    match rest.dropWhile (· != '=') with
    | [] => .long name none
    | _ :: value => .long name (some (String.ofList value))
  | '-' :: c :: rest => .short (c :: rest)
  | _ => .plain

/-- The value of an option: the one attached, or the next argument unless that looks
like an option; and the arguments behind it. -/
def optionValue (attached : Option String) (rest : List String) : Option (String × List String) :=
  match attached, rest with
  | some value, rest => some (value, rest)
  | none, value :: rest =>
    match shape value with
    | .plain => some (value, rest)
    | _ => none
  | none, [] => none

theorem optionValue_length {attached : Option String} {rest rest' : List String} {value : String}
    (h : optionValue attached rest = some (value, rest')) : rest'.length ≤ rest.length := by
  unfold optionValue at h
  split at h
  · simp_all
  · split at h <;> simp_all
  · simp at h

/-- Reads the settings option, which may be given once. -/
def Seen.withSettings (seen : Seen) (value : String) : Option Seen := do
  let path ← file? value
  if seen.settings.isSome then none else some { seen with settings := some path }

/-- Reads the option for the time limit, which `play` takes once. -/
def Seen.withSeconds (seen : Seen) (verb : Verb) (value : String) : Option Seen := do
  let n ← number? value
  if seen.seconds.isSome ∨ verb ≠ .play then none else some { seen with seconds := some n }

/-- Reads the arguments behind a verb, up to one that asks for help. None if one before
that is no good; that arguments are missing shows only at their end. -/
def readOptions (verb : Verb) (seen : Seen) : List String → Option (Seen ⊕ Unit)
  | [] => some (.inl seen)
  | arg :: rest =>
    match shape arg with
    | .escape => some (.inl { seen with arguments := seen.arguments ++ rest })
    | .plain =>
      if verb.takes seen.arguments.length arg then
        readOptions verb { seen with arguments := seen.arguments ++ [arg] } rest
      else none
    | .short letters => if letters.head? = some 'h' then some (.inr ()) else none
    | .long name attached =>
      if name = "json" then
        if verb = .list ∧ !seen.json ∧ attached.isNone then
          readOptions verb { seen with json := true } rest
        else none
      else if name = "help" then (if attached.isNone then some (.inr ()) else none)
      else
        match h : optionValue attached rest with
        | none => none
        | some (value, rest') =>
          have := optionValue_length h
          if name = "config" then
            match seen.withSettings value with
            | some seen => readOptions verb seen rest'
            | none => none
          else if name = "max-seconds" then
            match seen.withSeconds verb value with
            | some seen => readOptions verb seen rest'
            | none => none
          else none
  termination_by args => args.length
  decreasing_by all_goals simp only [List.length_cons]; omega

/-- The command that a verb and its arguments make. -/
def ofSeen? (verb : Verb) (seen : Seen) : Option Command :=
  match verb, seen.arguments with
  | .list, [tape] => do return .list (← file? tape) seen.json
  | .rename, [tape, block, name] => do return .rename (← file? tape) (← number? block) name
  | .move, tape :: before :: block :: blocks => do
    return .move (← file? tape) (← number? before) (← (block :: blocks).mapM number?)
  | .remove, tape :: block :: blocks => do
    return .remove (← file? tape) (← (block :: blocks).mapM number?)
  | .play, [tape] => do
    return .play (← file? tape) (seen.seconds.getD standardSeconds)
  | _, _ => none

end Command

namespace Request

/-- The request of a verb and the arguments behind it. -/
def ofVerb (settings : Option String) (verb : Command.Verb) (args : List String) : Request :=
  match Command.readOptions verb ⟨none, false, none, []⟩ args with
  | none => misuse
  | some (.inr ()) => help
  | some (.inl seen) =>
    match Command.ofSeen? verb seen with
    | none => misuse
    | some command => run ⟨seen.settings.or settings, command⟩

/-- The request of the arguments behind `help`, which may name a command. -/
def ofTopic : List String → Request
  | [] => help
  | [topic] =>
    if topic = "help" ∨ (Command.Verb.ofName? topic).isSome then help else misuse
  | _ => misuse

/-- The request of all arguments, with the settings file named before them. -/
def ofArgumentsFrom (settings : Option String) : List String → Request
  | [] => misuse
  | arg :: rest =>
    match Command.shape arg with
    | .escape => misuse
    | .plain =>
      match Command.Verb.ofName? arg with
      | some verb => ofVerb settings verb rest
      | none => if arg = "help" then ofTopic rest else misuse
    | .short letters =>
      match letters with
      | 'V' :: _ => version
      | 'h' :: _ => help
      | _ => misuse
    | .long name attached =>
      if name = "version" then (if attached.isNone then version else misuse)
      else if name = "help" then (if attached.isNone then help else misuse)
      else if name = "config" then
        match h : Command.optionValue attached rest with
        | none => misuse
        | some (value, rest') =>
          have := Command.optionValue_length h
          if settings.isSome ∨ value.isEmpty then misuse else ofArgumentsFrom (some value) rest'
      else misuse
  termination_by args => args.length
  decreasing_by all_goals simp only [List.length_cons]; omega

def ofArguments (args : List String) : Request := ofArgumentsFrom none args

end Request

end Cassette
