import BuildScript.RuleSet.Basic

/-!
# Cycles

A depth-first search for a target that depends on itself.  It goes through the targets in ascending
order and through the sources of each rule in the order in which they are written, so which of
several cycles is found depends on the rules alone.
-/

namespace BuildScript

/-- The names along a cycle, each depending on the next; the last is the first again. -/
structure Cycle where
  names : List Text
  deriving DecidableEq

namespace Cycle

def message (c : Cycle) : Text :=
  "circular dependency detected: ".toList ++ List.intercalate " -> ".toList c.names

def code : Text := "makefile2batch::generate::circular_dependency".toList

def help : Text := "the generated script would call these blocks recursively forever".toList

/-- The smallest of some names. -/
def least (first : Text) : List Text → Text
  | [] => first
  | name :: names => least (if name < first then name else first) names

/-- The cycle through some names and back to the first, begun at the smallest. -/
def ofLoop : List Text → Cycle
  | [] => ⟨[]⟩
  | first :: names =>
    let start := least first names
    let loop := first :: names
    ⟨loop.dropWhile (· != start) ++ loop.takeWhile (· != start) ++ [start]⟩

end Cycle

namespace RuleSet

/-- How many rules have a target off the path. -/
def offPath (g : RuleSet) (path : List Text) : Nat :=
  g.entries.countP fun r ↦ !path.contains r.target

theorem countP_lt_of_mem {rules : List Rule} {p q : Rule → Bool} (himp : ∀ r, p r → q r)
    {r : Rule} (hmem : r ∈ rules) (hp : p r = false) (hq : q r = true) :
    rules.countP p < rules.countP q := by
  induction rules with
  | nil => simp at hmem
  | cons s rest ih =>
    have hle : rest.countP p ≤ rest.countP q := List.countP_mono_left fun t _ ↦ himp t
    rcases List.mem_cons.mp hmem with rfl | hmem
    · simp only [List.countP_cons, hp, hq]
      simp
      omega
    · have hlt := ih hmem
      have hs := himp s
      simp only [List.countP_cons]
      cases hps : p s with
      | false => simp; split <;> omega
      | true => simp [hs hps, hlt]

theorem offPath_cons_lt {g : RuleSet} {path : List Text} {name : Text} {r : Rule}
    (hfind : g.find? name = some r) (hpath : ¬path.contains name) :
    g.offPath (name :: path) < g.offPath path := by
  have htarget : r.target = name := target_of_find? hfind
  refine countP_lt_of_mem (fun s hs ↦ ?_) (mem_rules.mp (mem_of_find? hfind)) ?_ ?_
  · simp only [List.contains_cons, Bool.not_or, Bool.and_eq_true] at hs
    exact hs.2
  · simp [htarget]
  · simpa [htarget] using hpath

/-- How many sources all rules have together. -/
def sourceCount (g : RuleSet) : Nat := (g.entries.flatMap Rule.sources).length

theorem length_sources_le {g : RuleSet} {name : Text} {r : Rule} (hfind : g.find? name = some r) :
    r.sources.length ≤ g.sourceCount := by
  obtain ⟨before, after, hsplit⟩ := List.append_of_mem (mem_rules.mp (mem_of_find? hfind))
  rw [sourceCount, hsplit, List.flatMap_append, List.flatMap_cons]
  simp only [List.length_append]
  omega

/-- A bound on the steps of a search from some names: every name off the path can still bring in
its sources once. -/
def searchBound (g : RuleSet) (path names : List Text) : Nat :=
  g.offPath path * (g.sourceCount + 1) + names.length

theorem searchBound_sources_lt {g : RuleSet} {path names : List Text} {name : Text} {r : Rule}
    (hfind : g.find? name = some r) (hpath : ¬path.contains name) :
    g.searchBound (name :: path) r.sources < g.searchBound path names := by
  have hoff : g.offPath (name :: path) + 1 ≤ g.offPath path := offPath_cons_lt hfind hpath
  have hlength := length_sources_le hfind
  calc
    g.searchBound (name :: path) r.sources
        < g.offPath (name :: path) * (g.sourceCount + 1) + (g.sourceCount + 1) := by
      rw [searchBound]
      omega
    _ = (g.offPath (name :: path) + 1) * (g.sourceCount + 1) := (Nat.succ_mul _ _).symm
    _ ≤ g.offPath path * (g.sourceCount + 1) := Nat.mul_le_mul_right _ hoff
    _ ≤ g.searchBound path names := Nat.le_add_right _ _

/-- Searches for a cycle from some names.  `path` leads from the name at its end to the one that
the names are sources of, and `clear` holds names from which no cycle is reached.  Gives the names
that are clear afterwards, or a cycle. -/
def search (g : RuleSet) (path clear : List Text) : List Text → Except Cycle (List Text)
  | [] => .ok clear
  | name :: rest =>
    if clear.contains name then search g path clear rest
    else if _hpath : path.contains name then
      .error (Cycle.ofLoop (name :: (path.takeWhile (· != name)).reverse))
    else
      match _hfind : g.find? name with
      | none => search g path clear rest
      | some r =>
        match search g (name :: path) clear r.sources with
        | .error cycle => .error cycle
        | .ok clear => search g path (name :: clear) rest
termination_by names => g.searchBound path names
decreasing_by
  · simp [searchBound]
  · simp [searchBound]
  · exact searchBound_sources_lt _hfind _hpath
  · simp [searchBound]

/-- The first cycle that the search finds. -/
def findCycle? (g : RuleSet) : Option Cycle :=
  match g.search [] [] g.targets with
  | .ok _ => none
  | .error cycle => some cycle

end RuleSet

end BuildScript
