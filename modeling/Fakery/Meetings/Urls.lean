import Fakery.Core.Errors
import Mathlib.Data.List.DropRight

/-! The normalisation of meeting URLs and the parts of the standard library that it rests on.
Strings are lists of characters. -/
namespace Fakery.Meetings
open Fakery.Core

abbrev Text := List Char

section strings

/-- Outside ASCII only the Kelvin sign becomes a letter of a meeting code. -/
def lowerChar (c : Char) : Char := if c = '\u212a' then 'k' else c.toLower

/-- `str.lower` -/
def lower (s : Text) : Text := s.map lowerChar

def rstrip (c : Char) (s : Text) : Text := s.rdropWhile (· = c)

/-- The first part of `str.partition`. -/
def before (c : Char) (s : Text) : Text := s.takeWhile (· ≠ c)

/-- The last part of `str.partition`. -/
def after (c : Char) (s : Text) : Text := (s.dropWhile (· ≠ c)).drop 1

/-- The parts between slashes that are not empty. -/
def segments (path : Text) : List Text := (path.splitOn '/').filter (· ≠ [])

end strings

section urlsplit

structure SplitResult where
  scheme : Text
  netloc : Text
  path : Text
  query : Text
  fragment : Text
deriving DecidableEq

def schemeChar (c : Char) : Bool := c.isAlphanum || c = '+' || c = '-' || c = '.'

/-- The scheme in lower case, and what follows its colon. -/
def splitScheme (url : Text) : Text × Text :=
  if ':' ∈ url ∧ (before ':' url).head?.any Char.isAlpha ∧ (before ':' url).all schemeChar then
    (lower (before ':' url), after ':' url)
  else ([], url)

def delimiter (c : Char) : Bool := c = '/' || c = '?' || c = '#'

def splitNetloc : Text → Text × Text
  | '/' :: '/' :: rest => (rest.takeWhile (!delimiter ·), rest.dropWhile (!delimiter ·))
  | url => ([], url)

def plainNetloc (netloc : Text) : Bool := netloc.all fun c => c ≠ '[' && c ≠ ']' && c.val < 128

/-- `admits` stands for the checks of bracketed addresses and of normalised forms, which only an
authority with brackets or with characters outside ASCII goes through. -/
def checkNetloc (admits : Text → Bool) (netloc : Text) : Bool :=
  plainNetloc netloc || (decide ('[' ∈ netloc ↔ ']' ∈ netloc) && admits netloc)

def unsafeChar (c : Char) : Bool := c = '\t' || c = '\r' || c = '\n'

/-- `none` is the ValueError of an authority that is not valid. -/
def urlsplit (admits : Text → Bool) (url : Text) : Option SplitResult :=
  let url := (url.dropWhile (· ≤ ' ')).filter (!unsafeChar ·)
  let (scheme, url) := splitScheme url
  let (netloc, url) := splitNetloc url
  if checkNetloc admits netloc then
    some { scheme := scheme, netloc := netloc
           path := before '?' (before '#' url), query := after '?' (before '#' url)
           fragment := after '#' url }
  else none

/-- The zone of a scoped address keeps its case. -/
def SplitResult.hostname (parsed : SplitResult) : Text :=
  let hostinfo := parsed.netloc.rtakeWhile (· ≠ '@')
  let hostname := if '[' ∈ hostinfo then before ']' (after '[' hostinfo) else before ':' hostinfo
  lower (before '%' hostname) ++ hostname.dropWhile (· ≠ '%')

/-- `urlunsplit` of a URL with an authority and with neither query nor fragment. -/
def urlunsplit (scheme netloc path : Text) : Text :=
  scheme ++ ':' :: '/' :: '/' :: (netloc ++ path)

end urlsplit

inductive UrlError where
  | valueError
  | problem (e : TwinError)
deriving DecidableEq

def codeChar (c : Char) : Bool := ('a' ≤ c && c ≤ 'z') || ('0' ≤ c && c ≤ '9')

/-- `[a-z0-9]{3}-[a-z0-9]{4,}-[a-z0-9]{3}` -/
def isCode (code : Text) : Bool :=
  match code.splitOn '-' with
  | [a, b, c] => a.length = 3 && 4 ≤ b.length && c.length = 3 && (a ++ b ++ c).all codeChar
  | _ => false

def https : Text := "https".toList

def meetHost : Text := "meet.google.com".toList

/-- The canonical URL and the key of the meeting. -/
def normalizeMeetingUrl (admits : Text → Bool) (meetingUrl : Text) :
    Except UrlError (Text × Text) :=
  match urlsplit admits meetingUrl with
  | none => .error .valueError
  | some parsed =>
    let host := rstrip '.' (lower parsed.hostname)
    let parts := segments (rstrip '/' parsed.path)
    match parts with
    | [part] =>
      if lower parsed.scheme ≠ https ∨ host ≠ meetHost then
        .error (.problem
          (makeError "validation-failed" "meeting_url must be a Google Meet HTTPS URL"))
      else
        let code := lower part
        if isCode code then
          .ok (urlunsplit https meetHost ('/' :: code), meetHost ++ '/' :: code)
        else .error (.problem
          (makeError "validation-failed" "meeting_url has an invalid meeting code"))
    | _ => .error (.problem
        (makeError "validation-failed" "meeting_url must be a Google Meet HTTPS URL"))

end Fakery.Meetings
