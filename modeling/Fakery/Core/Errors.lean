import Mathlib.Data.Nat.Notation

/-! The catalogue of problem errors. -/
namespace Fakery.Core

structure TwinError where
  slug : String
  title : String
  status : ℕ
  detail : String
deriving DecidableEq

def catalog : List (String × String × ℕ) :=
  [("validation-failed", "Request failed validation", 422),
   ("unauthorized", "Missing or invalid credentials", 401),
   ("forbidden", "Action not allowed", 403),
   ("not-found", "Resource not found", 404),
   ("conflict", "State conflict; read detail", 409),
   ("rate-limited", "Quota exhausted", 429),
   ("upstream-unavailable", "Provider unavailable; retry later", 503),
   ("internal", "Internal error", 500)]

/-- A slug outside the catalogue is a programming error; it keeps its slug and has no status. -/
def makeError (slug detail : String) : TwinError :=
  match catalog.lookup slug with
  | some (title, status) => ⟨slug, title, status, detail⟩
  | none => ⟨slug, "unknown error slug", 0, detail⟩

end Fakery.Core
