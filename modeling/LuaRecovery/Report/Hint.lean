/-
What a string constant looks like.

Some strings are worth reporting for their form: addresses of web hooks, asset
identifiers, web addresses, and long runs of base-64 characters.  The first form that
fits is the hint.  Letters compare without regard to case, under the case pairs of
Unicode; the long s, the two Turkic letters i and the Kelvin sign are the only letters
outside ASCII that pair with one in the patterns.
-/
namespace LuaRecovery.Report

/-- The small ASCII letter that a character pairs with, else the character itself. -/
def foldCase (c : Char) : Char :=
  match c.toNat with
  | 0x017F => 's'
  | 0x0130 => 'i'
  | 0x0131 => 'i'
  | 0x212A => 'k'
  | _ => c.toLower

/-- Whether the text starts with a pattern in small letters, up to case. -/
def startsWith (pattern : List Char) (cs : List Char) : Bool :=
  pattern.isPrefixOf ((cs.take pattern.length).map foldCase)

/-- Whether some rest of the text satisfies `p`. -/
def anyRest (p : List Char → Bool) : List Char → Bool
  | [] => p []
  | c :: rest => p (c :: rest) || anyRest p rest

/-- An address of a web hook, anywhere in the text. -/
def hasWebhook (cs : List Char) : Bool :=
  anyRest (fun rest => startsWith "discord.com/api/webhooks/".toList rest
    || startsWith "discordapp.com/api/webhooks/".toList rest) cs

/-- An asset identifier. -/
def isAsset (cs : List Char) : Bool :=
  startsWith "rbxassetid://".toList cs || startsWith "rbxasset://".toList cs

/-- A web address. -/
def isWebAddress (cs : List Char) : Bool :=
  startsWith "http://".toList cs || startsWith "https://".toList cs

/-- A character of base 64. -/
def isBase64 (c : Char) : Bool := c.isAlphanum || c == '+' || c == '/'

/-- At least 24 characters of base 64 and at most two equals signs, with perhaps a line
break at the end. -/
def isBlob (cs : List Char) : Bool :=
  let rest := cs.dropWhile isBase64
  let padding := rest.takeWhile (· == '=')
  let tail := rest.dropWhile (· == '=')
  24 ≤ (cs.takeWhile isBase64).length && padding.length ≤ 2 && (tail == [] || tail == ['\n'])

/-- The hint for a string, if its form is worth reporting. -/
def hint? (s : String) : Option String :=
  let cs := s.toList
  if hasWebhook cs then some "webhook"
  else if isAsset cs then some "asset id"
  else if isWebAddress cs then some "url"
  else if isBlob cs then some "base64-like blob"
  else none

/-- The hint for a string that is only long. -/
def longHint : String := "long string"

end LuaRecovery.Report
