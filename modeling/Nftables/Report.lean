import Nftables.Error

/-!
# Reports

An error on its way to the user, under descriptions of what was being attempted when it arose. Its
kind shows through all of them.
-/

namespace Nftables

/-- What went wrong in the first place. -/
inductive Cause
  | error (e : Error)
  | other (text : String)
deriving DecidableEq, Repr

def Cause.message : Cause → String
  | .error e => e.message
  | .other text => text

/-- A cause, and what was being attempted, the innermost attempt first. -/
structure Report where
  cause : Cause
  contexts : List String := []
deriving DecidableEq, Repr

namespace Report

def ofError (e : Error) : Report := { cause := .error e }

def ofText (text : String) : Report := { cause := .other text }

/-- The report as part of a larger attempt. -/
def within (r : Report) (context : String) : Report :=
  { r with contexts := r.contexts ++ [context] }

/-- All messages, the outermost first. -/
def messages (r : Report) : List String := r.contexts.reverse ++ [r.cause.message]

def isNotFound (r : Report) : Bool :=
  match r.cause with
  | .error e => e.isNotFound
  | .other _ => false

def isAlreadyExists (r : Report) : Bool :=
  match r.cause with
  | .error e => e.isAlreadyExists
  | .other _ => false

@[simp] theorem isNotFound_within (r : Report) (context : String) :
    (r.within context).isNotFound = r.isNotFound := rfl

@[simp] theorem isAlreadyExists_within (r : Report) (context : String) :
    (r.within context).isAlreadyExists = r.isAlreadyExists := rfl

theorem messages_within (r : Report) (context : String) :
    (r.within context).messages = context :: r.messages := by
  simp [within, messages]

/-- A message with each of its lines indented. -/
def indented (message : String) : String :=
  "\n".intercalate ((message.toList.splitOn '\n').map fun line => "    " ++ String.ofList line)

/-- The report as it is printed: the outermost message, and below it those that led to it. -/
def text (r : Report) : String :=
  match r.messages with
  | [] => ""
  | [only] => s!"Error: {only}\n"
  | outer :: causes =>
    s!"Error: {outer}\n\nCaused by:\n" ++ String.join (causes.map (indented · ++ "\n"))

end Report

end Nftables
