/-!
# Construction options

Two switches govern the construction of a graph.  Settings reach the library either by key
or by position; what is left out keeps its default, and a setting that is not a truth value
is refused.

## Main definitions

* `Options` : the two switches.
* `Options.read?` : the switches given by a form of settings.
-/

namespace Flowgraph

/-- The switches of the construction. -/
structure Options where
  /-- Connect the subject of a `match` to every alternative, instead of chaining them. -/
  flatDispatch : Bool := false
  /-- Keep the markers set by comments. -/
  markers : Bool := true
deriving DecidableEq, Repr, Inhabited

namespace Options

/-- A value given for a switch. -/
inductive Setting where
  /-- A truth value. -/
  | flag (value : Bool)
  /-- Anything else. -/
  | other
deriving DecidableEq, Repr

/-- The ways in which settings are given. -/
inductive Form where
  /-- Nothing is given. -/
  | absent
  /-- Settings by key. -/
  | keyed (settings : List (String × Setting))
  /-- Settings by position. -/
  | positional (settings : List Setting)
  /-- A value that holds no settings. -/
  | other
deriving DecidableEq, Repr

/-- The value of a switch, if one is given it has to be a truth value. -/
def Setting.resolve? (default : Bool) : Option Setting → Option Bool
  | none => some default
  | some (.flag value) => some value
  | some .other => none

/-- The switches from the settings of each of the two. -/
def ofSettings? (flatDispatch markers : Option Setting) : Option Options := do
  let flatDispatch ← Setting.resolve? false flatDispatch
  let markers ← Setting.resolve? true markers
  return { flatDispatch, markers }

/-- The switches given by a form of settings.  Keys that name no switch are ignored, and more
positions than there are switches are refused. -/
def read? : Form → Option Options
  | .absent => some {}
  | .keyed settings => ofSettings? (settings.lookup "flat-dispatch") (settings.lookup "markers")
  | .positional [] => ofSettings? none none
  | .positional [flatDispatch] => ofSettings? (some flatDispatch) none
  | .positional [flatDispatch, markers] => ofSettings? (some flatDispatch) (some markers)
  | .positional _ => none
  | .other => none

end Options

end Flowgraph
