import FindExpr.Command.Switch

namespace FindExpr.Command

/-- What has been read of a command line up to its verb, or behind it. -/
structure Reading where
  given : List (Switch × String)
  /-- The last switch, while its value is still to come or to be looked at. -/
  pending : Option (Switch × Option String)
  operands : List String

namespace Reading

def empty : Reading := ⟨[], none, []⟩

def has (r : Reading) (s : Switch) : Bool := r.given.any (·.1 = s)

def values (r : Reading) (s : Switch) : List String := (r.given.filter (·.1 = s)).map (·.2)

def awaitsValue (r : Reading) : Bool := r.pending.any (·.2.isNone)

def accept (r : Reading) (s : Switch) (value : String) : Except Refusal Reading :=
  if r.has s && !s.repeatable then .error .repeatedSwitch
  else match s.objection? value with
    | some refusal => .error refusal
    | none => .ok { r with given := r.given ++ [(s, value)] }

def settle (r : Reading) : Except Refusal Reading :=
  match r.pending with
  | none => .ok r
  | some (_, none) => .error .missingValue
  | some (s, some value) => { r with pending := none }.accept s value

def addSwitch (r : Reading) (s : Switch) (attached : Option String) : Except Refusal Reading :=
  match s.takesValue, attached with
  | false, some _ => .error .needlessValue
  | false, none => r.settle.bind (·.accept s "")
  | true, some value => r.settle.bind (·.accept s value)
  | true, none => r.settle.map fun r => { r with pending := some (s, none) }

def addLong (verb : Option Verb) (r : Reading) (text : List Char) : Except Refusal Reading :=
  let name := text.takeWhile (· ≠ '=')
  let attached := (text.dropWhile (· ≠ '=')).tail?.map String.ofList
  match Switch.ofLong? verb name with
  | some s => r.addSwitch s attached
  | none => .error .unknownArgument

def addShort (verb : Option Verb) (r : Reading) : List Char → Except Refusal Reading
  | [] => .ok r
  | letter :: letters =>
    match Switch.ofShort? verb letter with
    | some s => (r.addSwitch s none).bind (addShort verb · letters)
    | none => .error .unknownArgument

def takesOperand (verb : Option Verb) (r : Reading) : Bool :=
  match verb with
  | none => false
  | some .check => true
  | some _ => r.operands.isEmpty

def namesVerb (text : String) : Bool := text = "help" || (Verb.ofText? text).isSome

def addOperand (verb : Option Verb) (escaped : Bool) (r : Reading) (text : String) :
    Except Refusal Reading :=
  if takesOperand verb r then r.settle.map fun r => { r with operands := r.operands ++ [text] }
  else if verb.isNone && !(escaped && namesVerb text) then .error .unknownVerb
  else .error .unknownArgument

def add (verb : Option Verb) (r : Reading) (text : String) : Except Refusal Reading :=
  match text.toList, r.pending with
  | '-' :: '-' :: name, _ => addLong verb r name
  | '-' :: letter :: letters, _ => addShort verb r (letter :: letters)
  | _, some (s, none) => .ok { r with pending := some (s, some text) }
  | _, _ => addOperand verb false r text

def ofArguments (verb : Verb) : Reading → List String → Except Refusal Reading
  | r, [] => r.settle
  | r, "--" :: operands =>
    (operands.foldlM (addOperand (some verb) true) r).bind settle
  | r, text :: rest => (r.add (some verb) text).bind (ofArguments verb · rest)

end Reading

end FindExpr.Command
