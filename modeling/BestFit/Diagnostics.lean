import BestFit.Text.Blank

/-! Diagnostics: the form in which events are reported, and whether they are. -/
namespace BestFit.Diagnostics

/-- The form of a report. -/
inductive Style where
  /-- One plain line for each event. -/
  | text
  /-- Events indented by what they happened in. -/
  | tree
  /-- One JSON object for each event. -/
  | json
deriving DecidableEq, Repr

/-- The style that a name stands for, blank space around it and the case of ASCII
letters aside. Every other name stands for plain text. -/
def Style.ofName (name : String) : Style :=
  let key := (Text.trim name.toList).map Char.toLower
  if key = "tree".toList then .tree
  else if key = "json".toList then .json
  else .text

/-- The settings that a process is started with; any of them may be missing. -/
structure Settings where
  /-- Which events are reported. -/
  filter : Option String := none
  /-- The same, where `filter` is missing. -/
  fallbackFilter : Option String := none
  style : Option String := none
deriving DecidableEq, Repr

/-- What reports events. -/
structure Reporter where
  filter : String
  style : Style
deriving DecidableEq, Repr

/-- The reporter that the settings ask for, if they ask for one. An empty filter
does, too. -/
def Settings.reporter? (e : Settings) : Option Reporter :=
  (e.filter.or e.fallbackFilter).map fun filter =>
    { filter, style := Style.ofName (e.style.getD "") }

/-- Installs the reporter that the settings ask for, and tells whether that was done.
The first reporter of a process stays. -/
def install (e : Settings) : StateM (Option Reporter) Bool := do
  match ← get, e.reporter? with
  | none, some r =>
      set (some r)
      return true
  | _, _ => return false

end BestFit.Diagnostics
