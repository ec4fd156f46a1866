import DhcpdPools.CString
import DhcpdPools.Machine
import DhcpdPools.Tables

/-!
`parse_config`: one loop over the characters of the configuration file and the
state that it carries. The tables that it fills are globals; the recursive call for
an include statement starts with fresh local variables. A run stops where the
program exits.
-/
namespace DhcpdPools.ConfigReader
open Machine

/-- `enum isc_conf_parser`. -/
inductive IscConfParser where
  | ITS_NOTHING_INTERESTING
  | ITS_A_RANGE_FIRST_IP
  | ITS_A_RANGE_SECOND_IP
  | ITS_A_SHAREDNET
  | ITS_AN_INCLUCE
  | ITS_A_SUBNET
  | ITS_A_NETMASK
deriving DecidableEq, Repr

def MAXLEN : Nat := 1024

def SHARED_NETWORKS : Nat := 8192

/-- Why the program ends, or does not come back. -/
inductive Stop where
  | cannotOpen (file : List Char)
  | parsingFailed (position : Nat)
  | increaseSharedNetworks
  /-- `range_p` is null or points into memory that `xrealloc` gave back. -/
  | badPointer
  /-- The loop over the bits of an empty netmask. -/
  | endlessLoop
  /-- More nested includes than the bound of the model. -/
  | tooDeep
deriving DecidableEq

/-- The globals that `parse_config` changes. A pointer into `ranges` is valid for one
    allocation of it, which `allocation` numbers; `opened` records the files opened. -/
structure Globals where
  ipVersion : DhcpVersion
  ranges : Nat → Range
  numRanges : Nat
  RANGES : Nat
  allocation : Nat
  sharedNetworks : Nat → SharedNetwork
  numSharedNetworks : Nat
  opened : List (List Char)

/-- The globals with the variables that say in which block of the file the parser is. -/
structure Core where
  g : Globals
  sharedP : Nat
  braces : Int
  bracesShared : Int

/-- The variables that say how far a statement is read; `word` is `word[0..i)`. -/
structure Lex where
  newclause : Bool
  comment : Bool
  oneIpRange : Bool
  quote : Bool
  argument : IscConfParser
  word : List Char
deriving DecidableEq

/-- The state of the loop; `pos` is the position in the file. -/
structure St where
  core : Core
  lex : Lex
  addr : Ipaddr
  rangeP : Option (Nat × Nat)
  pos : Nat

/-- What the parser takes from outside: the address parsers, the files,
    `config.all_as_shared`, the byte in front of the word buffer, and the address
    variable before anything is written to it. -/
structure Env where
  inet : Inet
  files : List Char → Option (List Char)
  allAsShared : Bool
  before : Char
  junk : Ipaddr

/-- `is_interesting_config_clause`. -/
def isInterestingConfigClause (allAsShared : Bool) (s : List Char) : IscConfParser :=
  if strstr s "range".toList then .ITS_A_RANGE_FIRST_IP
  else if strstr s "shared-network".toList then .ITS_A_SHAREDNET
  else if allAsShared ∧ strstr s "subnet".toList then .ITS_A_SUBNET
  else if allAsShared ∧ strstr s "netmask".toList then .ITS_A_NETMASK
  else if strstr s "include".toList then .ITS_AN_INCLUCE
  else .ITS_NOTHING_INTERESTING

namespace Globals
variable (g : Globals)

/-- A write to an entry of `ranges`. -/
def setRange (i : Nat) (r : Range) : Globals := { g with ranges := Function.update g.ranges i r }

/-- `copy_ipaddr(&range_p->first_ip, &addr)`. -/
def copyFirst (i : Nat) (addr : Ipaddr) : Globals :=
  g.setRange i { g.ranges i with firstIp := copyIpaddr g.ipVersion (g.ranges i).firstIp addr }

/-- `copy_ipaddr(&range_p->last_ip, &addr)`. -/
def copyLast (i : Nat) (addr : Ipaddr) : Globals :=
  g.setRange i { g.ranges i with lastIp := copyIpaddr g.ipVersion (g.ranges i).lastIp addr }

/-- `range_p->last_ip = range_p->first_ip`. -/
def lastIsFirst (i : Nat) : Globals := g.setRange i { g.ranges i with lastIp := (g.ranges i).firstIp }

/-- `reorder_last_first`. -/
def reorderLastFirst (i : Nat) : Globals :=
  if 0 < ipcomp g.ipVersion (g.ranges i).firstIp (g.ranges i).lastIp then
    g.setRange i { g.ranges i with firstIp := (g.ranges i).lastIp, lastIp := (g.ranges i).firstIp }
  else g

/-- An address for the entry behind the last range, as its first one. -/
def firstAddress (version : DhcpVersion) (addr : Ipaddr) : Globals :=
  { g with ipVersion := version }.copyFirst g.numRanges addr

/-- An address for the same entry, as its last one, and as its first one too when the
    range has no other. -/
def secondAddress (version : DhcpVersion) (one : Bool) (addr : Ipaddr) : Globals :=
  let g := { g with ipVersion := version }
  let g := if one then g.copyFirst g.numRanges addr else g
  (g.copyLast g.numRanges addr).reorderLastFirst g.numRanges

/-- The code at `newrange`, up to the pointer. -/
def newrange (i sharedP : Nat) : Globals :=
  let g := g.setRange i { g.ranges i with count := 0, touched := 0, backups := 0, sharedNet := some sharedP }
  let g := { g with numRanges := g.numRanges + 1 }
  if g.RANGES < g.numRanges + 1 then { g with RANGES := g.RANGES * 2, allocation := g.allocation + 1 } else g

/-- A write to an entry of `shared_networks`. -/
def setNetwork (i : Nat) (n : SharedNetwork) : Globals :=
  { g with sharedNetworks := Function.update g.sharedNetworks i n }

end Globals

section
variable (env : Env)

/-- The arm of a shared network or subnet, from `num_shared_networks++` on. -/
def recordNetwork (k : Core) (name : List Char) (netmask : Int) : Except Stop Core :=
  let n := k.g.numSharedNetworks + 1
  let g := { k.g with numSharedNetworks := n }.setNetwork n ⟨name, 0, 0, 0, 0, netmask⟩
  if SHARED_NETWORKS < n + 2 then .error .increaseSharedNetworks
  else .ok { k with g := g, sharedP := n, bracesShared := k.braces }

/-- `while ((addr.v4 & 0x01) == 0)`, shifting, with a bound on the rounds. -/
def netmaskLoop : Nat → BitVec 32 → Int → Except Stop (BitVec 32 × Int)
  | 0, _, _ => .error .endlessLoop
  | n + 1, mask, netmask =>
    if mask.getLsbD 0 then .ok (mask, netmask) else netmaskLoop n (mask >>> 1) (netmask - 1)

/-- The network gets its netmask and its name with the prefix length; `snprintf`
    cuts the name to the buffer. The address is left shifted. -/
def recordNetmask (k : Core) (addr : Ipaddr) : Except Stop (Core × Ipaddr) := do
  let shifted ← netmaskLoop 33 addr.v4 32
  let net := k.g.sharedNetworks k.sharedP
  let name := (net.name ++ '/' :: (toString shifted.2).toList).take (MAXLEN - 2)
  .ok ({ k with g := k.g.setNetwork k.sharedP { net with name := name, netmask := shifted.2 } }, .ofV4 shifted.1)

/-- The code at `newrange`: `range_p` is followed, and moved when `ranges` moves. -/
def newrange (s : St) : Except Stop St :=
  match s.rangeP with
  | none => .error .badPointer
  | some (allocation, i) =>
    if allocation = s.core.g.allocation then
      let g := s.core.g.newrange i s.core.sharedP
      .ok { s with
        core := { s.core with g := g }
        lex := { s.lex with newclause := true }
        rangeP := if g.allocation = allocation then some (allocation, i) else some (g.allocation, g.numRanges) }
    else .error .badPointer

variable (incl : List Char → Nat → Globals → Except Stop Globals)

/-- A word after a keyword ends: the `switch (argument)`. -/
def argumentWord (s : St) : Except Stop St :=
  let word := cstr s.lex.word
  let lex := { s.lex with newclause := false, word := [] }
  let g := s.core.g
  match s.lex.argument with
  | .ITS_A_RANGE_SECOND_IP =>
    let parsed := parseIpaddr env.inet g.ipVersion word s.addr
    let g := g.secondAddress parsed.1 s.lex.oneIpRange parsed.2.2
    newrange { s with
      core := { s.core with g := g }
      lex := { lex with argument := .ITS_NOTHING_INTERESTING, oneIpRange := false }
      addr := parsed.2.2
      rangeP := some (g.allocation, g.numRanges) }
  | .ITS_A_RANGE_FIRST_IP =>
    let parsed := parseIpaddr env.inet g.ipVersion word s.addr
    let s := { s with addr := parsed.2.2, rangeP := some (g.allocation, g.numRanges) }
    if parsed.2.1 then
      .ok { s with
        core := { s.core with g := g.firstAddress parsed.1 parsed.2.2 }
        lex := { lex with oneIpRange := false, argument := .ITS_A_RANGE_SECOND_IP } }
    else .ok { s with core := { s.core with g := { g with ipVersion := parsed.1 } }, lex := lex }
  | .ITS_A_SHAREDNET => do
    let core ← recordNetwork s.core word 0
    .ok { s with core := core, lex := { lex with argument := .ITS_NOTHING_INTERESTING } }
  | .ITS_A_SUBNET =>
    if s.core.sharedP ≠ 0 then .ok { s with lex := { lex with argument := .ITS_NOTHING_INTERESTING } }
    else do
      let core ← recordNetwork s.core word (-1)
      .ok { s with core := core, lex := { lex with newclause := true, argument := .ITS_NOTHING_INTERESTING } }
  | .ITS_A_NETMASK =>
    let done := fun (core : Core) (addr : Ipaddr) =>
      { s with
        core := { core with bracesShared := core.braces }
        lex := { lex with argument := .ITS_NOTHING_INTERESTING }
        addr := addr : St }
    if (g.sharedNetworks s.core.sharedP).netmask ≠ 0 then
      let parsed := parseIpaddr env.inet g.ipVersion word s.addr
      let core := { s.core with g := { g with ipVersion := parsed.1 } }
      if parsed.2.1 then do
        let recorded ← recordNetmask core parsed.2.2
        .ok (done recorded.1 recorded.2)
      else .ok { s with core := core, lex := lex, addr := parsed.2.2 }
    else .ok (done s.core s.addr)
  | .ITS_AN_INCLUCE => do
    let g ← incl word s.core.sharedP g
    .ok { s with
      core := { s.core with g := g }
      lex := { lex with argument := .ITS_NOTHING_INTERESTING, newclause := true } }
  | .ITS_NOTHING_INTERESTING => .ok { s with lex := lex }

/-- The first word of a clause ends. Of an empty word the byte in front of the buffer is looked at. -/
def clauseWord (s : St) : St :=
  let last := s.lex.word.getLast?.getD env.before
  let argument := isInterestingConfigClause env.allAsShared (cstr s.lex.word)
  { s with lex := { s.lex with
      newclause := if last ≠ '\x7b' then false else s.lex.newclause
      word := []
      argument := argument
      oneIpRange := if argument = .ITS_A_RANGE_FIRST_IP then true else s.lex.oneIpRange } }

/-- The loop body after the `switch (c)`. -/
def afterSwitch (s : St) (c : Char) : Except Stop St :=
  let l := s.lex
  if l.comment ∨ l.newclause = false ∧ l.argument = .ITS_NOTHING_INTERESTING then .ok s
  else if (l.newclause ∨ l.argument ≠ .ITS_NOTHING_INTERESTING) ∧ isspace c ∧ l.word = [] ∧ l.oneIpRange = false then
    .ok s
  else if (l.newclause ∨ l.argument ≠ .ITS_NOTHING_INTERESTING) ∧ (isspace c = false ∨ l.quote) then
    let word := l.word ++ [c]
    if MAXLEN = word.length then .ok { s with lex := { l with newclause := false, word := [] } }
    else .ok { s with lex := { l with word := word } }
  else if l.newclause then .ok (clauseWord env s)
  else if l.argument ≠ .ITS_NOTHING_INTERESTING then argumentWord env incl s
  else .ok s

/-- `case ';'`. -/
def semicolon (s : St) : Except Stop St :=
  let l := s.lex
  if l.quote then afterSwitch env incl s ';'
  else if l.comment = false ∧ l.argument ≠ .ITS_A_RANGE_FIRST_IP ∧ l.argument ≠ .ITS_A_RANGE_SECOND_IP ∧
      l.argument ≠ .ITS_AN_INCLUCE then
    .ok { s with lex := { l with newclause := true, word := [] } }
  else if l.argument = .ITS_A_RANGE_FIRST_IP ∧ l.oneIpRange then
    -- The assignment of a blank to `c` is lost: the loop goes on with the next character.
    .ok { s with lex := { l with argument := .ITS_A_RANGE_SECOND_IP } }
  else if l.argument = .ITS_A_RANGE_SECOND_IP ∧ l.word ≠ [] then afterSwitch env incl s ' '
  else if l.argument = .ITS_A_RANGE_SECOND_IP ∧ l.word = [] then
    match s.rangeP with
    | none => .error (.parsingFailed s.pos)
    | some (allocation, i) =>
      if allocation = s.core.g.allocation then
        newrange { s with core := { s.core with g := s.core.g.lastIsFirst i } }
      else .error .badPointer
  else .ok s

/-- Entering a block. -/
def Core.opened (k : Core) : Core := { k with braces := k.braces + 1 }

/-- Leaving a block; at the end of a shared network its ranges end. -/
def Core.close (k : Core) : Core :=
  let k := { k with braces := k.braces - 1 }
  if k.bracesShared = k.braces then { k with bracesShared := 1000, sharedP := 0 } else k

/-- `case '{'`. -/
def openBrace (s : St) : Except Stop St :=
  if s.lex.quote then afterSwitch env incl s '\x7b'
  else
    let s := if s.lex.comment then s else { s with core := s.core.opened }
    if s.lex.word = [] then .ok { s with lex := { s.lex with newclause := true } }
    else afterSwitch env incl s '\x7b'

/-- `case '}'`. -/
def closeBrace (s : St) : Except Stop St :=
  if s.lex.quote then afterSwitch env incl s '\x7d'
  else if s.lex.comment then .ok s
  else .ok { s with core := s.core.close, lex := { s.lex with newclause := true } }

/-- The body of the loop for one character. -/
def step (s : St) (c : Char) : Except Stop St :=
  let s := { s with pos := s.pos + 1 }
  if c = '#' then .ok (if s.lex.quote then s else { s with lex := { s.lex with comment := true } })
  else if c = '"' then
    .ok (if s.lex.comment then s else { s with lex := { s.lex with quote := !s.lex.quote } })
  else if c = '\n' then
    afterSwitch env incl (if s.lex.quote then s else { s with lex := { s.lex with comment := false } }) c
  else if c = ';' then semicolon env incl s
  else if c = '\x7b' then openBrace env incl s
  else if c = '\x7d' then closeBrace env incl s
  else afterSwitch env incl s c

/-- The variables at the start of a file. -/
def start (g : Globals) (sharedP : Nat) : St :=
  ⟨⟨g, sharedP, 0, 1000⟩, ⟨true, false, false, false, .ITS_NOTHING_INTERESTING, []⟩, env.junk, none, 0⟩

/-- What `fgetc` gives as a `char` at the end of the file. -/
def endOfFile : Char := Char.ofNat 255

/-- The loop over an open file. It reads the end of the file as one more character. -/
def readFile (text : List Char) (sharedP : Nat) (g : Globals) : Except Stop Globals := do
  let s ← run (step env incl) (start env g sharedP) (text ++ [endOfFile])
  .ok s.core.g

end

/-- `parse_config`, with a bound on the depth of nested includes. -/
def parseConfig (env : Env) : Nat → List Char → Nat → Globals → Except Stop Globals
  | 0, _, _, _ => .error .tooDeep
  | depth + 1, file, sharedP, g =>
    match env.files file with
    | none => .error (.cannotOpen file)
    | some text => readFile env (parseConfig env depth) text sharedP { g with opened := g.opened ++ [file] }

/-- The tables as `main` allocates them. -/
def emptyGlobals (version : DhcpVersion) : Globals where
  ipVersion := version
  ranges _ := ⟨none, ⟨Vector.replicate 16 0⟩, ⟨Vector.replicate 16 0⟩, 0, 0, 0⟩
  numRanges := 0
  RANGES := 64
  allocation := 0
  sharedNetworks _ := ⟨"All networks".toList, 0, 0, 0, 0, 0⟩
  numSharedNetworks := 0
  opened := []

/-- Parsers that know two addresses. -/
def sampleInet : Inet where
  inetAton s :=
    if s = "10.0.0.5".toList then (true, 0x0a000005#32)
    else if s = "10.0.0.9".toList then (true, 0x0a000009#32)
    else (false, 0#32)
  inetPton _ := (false, Vector.replicate 16 0)
  inetAton_empty := rfl
  inetPton_empty := rfl
  families _ parses := by cases parses

/-- An environment with these files. -/
def sampleEnv (files : List Char → Option (List Char)) : Env :=
  ⟨sampleInet, files, false, '\x00', ⟨Vector.replicate 16 0⟩⟩

end DhcpdPools.ConfigReader
