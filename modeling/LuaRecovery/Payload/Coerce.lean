/-
Numbers and texts in payloads.

An operand may be given as an integer, a truth value, or a text of digits after any
number of dashes; anything else counts as zero.  The text is then read as an integer,
which refuses more than one dash and digits that are not decimal.  A float may be
given as a number, a truth value, or a text or byte string that writes one.

Any payload has a text, but a host need not be able to write it: an integer in it may have
too many digits, and its lists and objects may be nested too deep.
-/
import LuaRecovery.Host
import LuaRecovery.Decimal.Reading

namespace LuaRecovery.Payload

/-- The integer 1 for true and 0 for false. -/
def truthInt (b : Bool) : Int := if b then 1 else 0

/-- The values of the leading decimal digits. -/
def leadingDigits : List Char → List Nat
  | [] => []
  | c :: cs => match Text.digitValue? c with
    | some d => d :: leadingDigits cs
    | none => []

/-- The integer that a text writes: an optional dash and decimal digits. -/
def readInteger (s : String) : Except LoadFault Int :=
  let (negative, body) := match s.toList with
    | '-' :: rest => (true, rest)
    | cs => (false, cs)
  let ds := leadingDigits body
  if LoadFault.digitLimit < ds.length then .error (.tooManyDigits ds.length)
  else if ds.isEmpty ∨ ds.length < body.length then .error (.badInteger s)
  else
    let n : Int := Text.valueFrom 0 ds
    .ok (if negative then -n else n)

/-- Whether a text is meant as an integer: digits of any class after dashes. -/
def looksNumeric (s : String) : Bool :=
  let body := s.toList.dropWhile (· = '-')
  !body.isEmpty && body.all Text.isDigit

/-- The integer that a payload gives for an operand or a count. -/
def toInteger : Payload → Except LoadFault Int
  | bool b => .ok (truthInt b)
  | int n => .ok n
  | text s => if looksNumeric s then readInteger s else .ok 0
  | _ => .ok 0

/-- The float of an integer, refused past the largest float. -/
def floatOfInt (n : Int) : Except LoadFault Float :=
  match Binary64.ofInt? n with
  | some x => .ok x
  | none => .error .integerTooLarge

/-- The characters of a byte string, with a character that no numeral has for the bytes
outside ASCII. -/
def asciiChars (bs : List UInt8) : List Char :=
  bs.map fun b => if b.toNat < 0x80 then Char.ofNat b.toNat else '?'

/-- The float that a payload gives. -/
def toFloat : Payload → Except LoadFault Float
  | bool b => .ok (if b then 1.0 else 0.0)
  | int n => floatOfInt n
  | float x => .ok x
  | text s => match Decimal.read? s with
    | some x => .ok x
    | none => .error (.badFloat (.text s))
  | bytes bs => match Decimal.readChars? (asciiChars bs) with
    | some x => .ok x
    | none => .error (.badFloat (.bytes bs))
  | p => .error (.notNumeric p.kind)

/-- The float that a payload gives where it must not be missing. -/
def toReal (p : Payload) : Except LoadFault Float :=
  if p.isNull then .error (.notReal p.kind) else p.toFloat

/-- The name that a payload is, if it is one; lists and objects cannot be looked for. -/
def asName? : Payload → Except LoadFault (Option String)
  | text s => .ok (some s)
  | list items => .error (.notAKey (list items).kind)
  | object fields => .error (.notAKey (object fields).kind)
  | _ => .ok none

/-- The elements of a payload, refused if it has none to iterate over. -/
def elements (p : Payload) : Except LoadFault (List Payload) :=
  match p.elements? with
  | some items => .ok items
  | none => .error (.notIterable p.kind)

/-! ### Texts -/

mutual

/-- What keeps a host from writing a payload down, whichever is met first. -/
def obstacle? : Payload → Host → Option LoadFault
  | int n, h => if h.writes n then none else some .unwritable
  | list items, h =>
    if h.insideList.hasRoom then obstacleAll? items h.insideList else some .tooNested
  | object fields, h =>
    if h.insideList.hasRoom then obstacleFields? fields h.insideList else some .tooNested
  | _, _ => none

/-- What keeps a host from writing the items of a list down. -/
def obstacleAll? : List Payload → Host → Option LoadFault
  | [], _ => none
  | p :: rest, h => (p.obstacle? h).or (obstacleAll? rest h)

/-- What keeps a host from writing the fields of an object down. -/
def obstacleFields? : List (String × Payload) → Host → Option LoadFault
  | [], _ => none
  | (_, p) :: rest, h => (p.obstacle? h).or (obstacleFields? rest h)

end

/-- The text of a payload, written by a host. -/
def textOn (h : Host) (p : Payload) : Except LoadFault String :=
  match p.obstacle? h with
  | some fault => .error fault
  | none => .ok p.asText

/-- A fault whose message shows a payload, or what keeps the host from showing it. -/
def refusal (h : Host) (p : Payload) (fault : LoadFault) : LoadFault := (p.obstacle? h).getD fault

end LuaRecovery.Payload
