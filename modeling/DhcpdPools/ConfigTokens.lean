import DhcpdPools.ConfigReader

/-!
The configuration as tokens. `tokStep` says what each token of a statement means,
whatever stands between the tokens; a text is a list of tokens, blanks and comments.
`next` follows the reader through such a text: it says where a word is still
pending in the buffer when its token has been read, and has no answer where the
reader loses track of the statement. A text that `next` follows to its end is read
as its tokens (`reads`).
-/
namespace DhcpdPools.ConfigTokens
open Machine ConfigReader

/-! ## Tokens -/

inductive Tok where
  | word (w : List Char)
  | quoted (q : List Char)
  | semi
  | lbrace
  | rbrace
deriving DecidableEq

/-- How far a statement is read: `skip` is a statement without meaning, `opening` the
    rest of a block head, `ended` a statement that lacks its semicolon only, and the
    others wait for an argument. -/
inductive Stage where
  | skip
  | opening
  | ended
  | first
  | second
  | name
  | subnet
  | mask
  | file
deriving DecidableEq

/-- Between two statements, inside one, or past a token that no statement has there. -/
inductive Clause where
  | fresh
  | stage (s : Stage)
  | wrong
deriving DecidableEq

/-- What the first word of a statement announces. -/
def stageOf : IscConfParser → Stage
  | .ITS_NOTHING_INTERESTING => .skip
  | .ITS_A_RANGE_FIRST_IP => .first
  | .ITS_A_RANGE_SECOND_IP => .second
  | .ITS_A_SHAREDNET => .name
  | .ITS_AN_INCLUCE => .file
  | .ITS_A_SUBNET => .subnet
  | .ITS_A_NETMASK => .mask

/-- The destination of a parse whose old contents do not matter. -/
def noAddr : Ipaddr := ⟨Vector.replicate 16 0⟩

/-- A character goes into the buffer, which is emptied when it is full. -/
def push (u : List Char) (c : Char) : List Char := if u.length + 1 = MAXLEN then [] else u ++ [c]

/-- What the buffer holds behind a word. -/
def leftover (w : List Char) : List Char := w.foldl push []

/-- The buffer behind the word is empty because it was full. -/
def Lost (w : List Char) : Prop := MAXLEN ≤ w.length ∧ leftover w = []

instance (w : List Char) : Decidable (Lost w) := inferInstanceAs (Decidable (_ ∧ _))

/-- What a string brings to the buffer: `#` is lost. -/
def gluedText (q : List Char) : List Char := q.filter (fun c => c ≠ '#')

/-- The buffer behind the text of a string: blanks are lost while it is empty. -/
def pour : List Char → List Char → List Char
  | u, [] => u
  | u, c :: q => if isspace c ∧ u = [] then pour u q else pour (push u c) q

def quotedText (q : List Char) : List Char := pour [] (gluedText q)

/-- What the reader keeps of a quoted string that fits: leading blanks and `#` are lost. -/
def quotedWord (q : List Char) : List Char := (q.filter (fun c => c ≠ '#')).dropWhile isspace

section buffer

theorem push_length {u : List Char} (room : u.length < MAXLEN) (c : Char) : (push u c).length < MAXLEN := by
  unfold push
  split_ifs with full
  · decide
  · rw [List.length_append, List.length_singleton]
    omega

theorem push_subset {u : List Char} {c d : Char} (member : d ∈ push u c) : d ∈ u ∨ d = c := by
  unfold push at member
  split_ifs at member
  · cases member
  · simpa using member

theorem foldl_push_length (w : List Char) {u : List Char} (room : u.length < MAXLEN) : (w.foldl push u).length < MAXLEN := by
  induction w generalizing u with
  | nil => exact room
  | cons c w ih => exact ih (push_length room c)

theorem foldl_push_subset {d : Char} (w : List Char) {u : List Char} (member : d ∈ w.foldl push u) : d ∈ u ∨ d ∈ w := by
  induction w generalizing u with
  | nil => exact Or.inl member
  | cons c w ih =>
    rcases ih member with pushed | later
    · rcases push_subset pushed with inside | rfl
      · exact Or.inl inside
      · exact Or.inr List.mem_cons_self
    · exact Or.inr (List.mem_cons_of_mem c later)

theorem foldl_push_short (w : List Char) {u : List Char} (room : u.length + w.length < MAXLEN) : w.foldl push u = u ++ w := by
  induction w generalizing u with
  | nil => simp
  | cons c w ih =>
    rw [List.length_cons] at room
    have kept : push u c = u ++ [c] := if_neg (by omega)
    rw [List.foldl_cons, kept, ih (by rw [List.length_append, List.length_singleton]; omega)]
    simp

theorem leftover_length (w : List Char) : (leftover w).length < MAXLEN := foldl_push_length w (by decide)

theorem leftover_subset {d : Char} {w : List Char} (member : d ∈ leftover w) : d ∈ w :=
  (foldl_push_subset w member).resolve_left List.not_mem_nil

theorem leftover_short {w : List Char} (room : w.length < MAXLEN) : leftover w = w := by
  rw [leftover, foldl_push_short w (by simpa using room), List.nil_append]

theorem not_lost {w : List Char} (room : w.length < MAXLEN) : ¬Lost w := fun lost => absurd lost.1 (Nat.not_le_of_lt room)

theorem pour_filled (q : List Char) {u : List Char} (filled : u ≠ []) (room : u.length + q.length < MAXLEN) :
    pour u q = u ++ q := by
  induction q generalizing u with
  | nil => simp [pour]
  | cons c q ih =>
    rw [List.length_cons] at room
    have kept : push u c = u ++ [c] := if_neg (by omega)
    rw [pour, if_neg (fun blank => filled blank.2), kept,
      ih (by simp) (by rw [List.length_append, List.length_singleton]; omega)]
    simp

theorem pour_short {q : List Char} (room : (q.dropWhile isspace).length < MAXLEN) : pour [] q = q.dropWhile isspace := by
  induction q with
  | nil => rfl
  | cons c q ih =>
    by_cases blank : isspace c = true
    · rw [List.dropWhile_cons_of_pos blank] at room ⊢
      rw [pour, if_pos ⟨blank, rfl⟩, ih room]
    · rw [List.dropWhile_cons_of_neg blank] at room ⊢
      rw [List.length_cons] at room
      rw [pour, if_neg (fun both => blank both.1), push, if_neg (by decide)]
      exact pour_filled q (by simp) (by simpa [Nat.add_comm] using room)

theorem pour_length (q : List Char) {u : List Char} (room : u.length < MAXLEN) : (pour u q).length < MAXLEN := by
  induction q generalizing u with
  | nil => exact room
  | cons c q ih =>
    rw [pour]
    split_ifs
    · exact ih room
    · exact ih (push_length room c)

theorem pour_subset {d : Char} (q : List Char) {u : List Char} (member : d ∈ pour u q) : d ∈ u ∨ d ∈ q := by
  induction q generalizing u with
  | nil => exact Or.inl member
  | cons c q ih =>
    rw [pour] at member
    split_ifs at member
    · exact (ih member).imp id (List.mem_cons_of_mem c)
    · rcases ih member with pushed | later
      · rcases push_subset pushed with inside | rfl
        · exact Or.inl inside
        · exact Or.inr List.mem_cons_self
      · exact Or.inr (List.mem_cons_of_mem c later)

theorem quotedText_length (q : List Char) : (quotedText q).length < MAXLEN := pour_length _ (by decide)

theorem quotedText_subset {d : Char} {q : List Char} (member : d ∈ quotedText q) : d ∈ q :=
  List.mem_of_mem_filter ((pour_subset _ member).resolve_left List.not_mem_nil)

theorem quotedText_short {q : List Char} (room : (quotedWord q).length < MAXLEN) : quotedText q = quotedWord q :=
  pour_short room

end buffer

section
variable (env : Env) (incl : List Char → Nat → Globals → Except Stop Globals)

/-- An argument of a statement. -/
def argument (k : Core) (w : List Char) : Stage → Except Stop (Core × Clause)
  | .skip => .ok (k, .stage .skip)
  | .opening => .ok (k, .stage .opening)
  | .ended => .ok (k, .wrong)
  | .first =>
    let parsed := parseIpaddr env.inet k.g.ipVersion w noAddr
    if parsed.2.1 then .ok ({ k with g := k.g.firstAddress parsed.1 parsed.2.2 }, .stage .second)
    else .ok (k, .stage .first)
  | .second =>
    let parsed := parseIpaddr env.inet k.g.ipVersion w noAddr
    let g := k.g.secondAddress parsed.1 false parsed.2.2
    .ok ({ k with g := g.newrange g.numRanges k.sharedP }, .stage .ended)
  | .name => do
    let k ← recordNetwork k w 0
    .ok (k, .stage .opening)
  | .subnet =>
    if k.sharedP ≠ 0 then .ok (k, .stage .opening)
    else do
      let k ← recordNetwork k w (-1)
      .ok (k, .fresh)
  | .mask =>
    if (k.g.sharedNetworks k.sharedP).netmask ≠ 0 then
      let parsed := parseIpaddr env.inet k.g.ipVersion w noAddr
      if parsed.2.1 then do
        let recorded ← recordNetmask { k with g := { k.g with ipVersion := parsed.1 } } parsed.2.2
        .ok ({ recorded.1 with bracesShared := recorded.1.braces }, .stage .opening)
      else .ok (k, .stage .mask)
    else .ok ({ k with bracesShared := k.braces }, .stage .opening)
  | .file => do
    let g ← incl w k.sharedP k.g
    .ok ({ k with g := g }, .stage .ended)

/-- The semicolon after a range with one address. -/
def completeSingle (k : Core) : Core :=
  let g := k.g.lastIsFirst k.g.numRanges
  { k with g := g.newrange g.numRanges k.sharedP }

/-- The first word of a statement; one that is too long is not looked at. -/
def announced (w : List Char) : Stage :=
  if w.length < MAXLEN then stageOf (isInterestingConfigClause env.allAsShared w) else .skip

/-- A word behind the first one. A long word may leave the buffer empty. -/
def wordArgument (k : Core) (w : List Char) : Stage → Except Stop (Core × Clause)
  | .skip => .ok (k, .stage .skip)
  | .opening => .ok (k, .stage .opening)
  | .ended => .ok (k, .wrong)
  | s => if Lost w then .ok (k, .stage s) else argument env incl k (leftover w) s

/-- The argument that a quoted string is. -/
def quotedArgument (k : Core) (q : List Char) (s : Stage) : Except Stop (Core × Clause) :=
  match s with
  | .skip | .opening => .ok (k, .stage s)
  | .name | .file =>
    if quotedText q = [] then .ok (k, .wrong) else argument env incl k (quotedText q) s
  | _ => .ok (k, .wrong)

/-- The meaning of a token. -/
def tokStep (r : Core × Clause) (t : Tok) : Except Stop (Core × Clause) :=
  match t, r.2 with
  | .word w, .fresh => .ok (r.1, .stage (announced env w))
  | .word w, .stage s => wordArgument env incl r.1 w s
  | .quoted q, .stage s => quotedArgument env incl r.1 q s
  | .semi, .fresh | .semi, .stage .skip | .semi, .stage .ended => .ok (r.1, .fresh)
  | .semi, .stage .second => .ok (completeSingle r.1, .fresh)
  | .lbrace, .fresh | .lbrace, .stage .skip | .lbrace, .stage .opening =>
    .ok (r.1.opened, .fresh)
  | .rbrace, .fresh => .ok (r.1.close, .fresh)
  | _, _ => .ok (r.1, .wrong)

/-- The meaning of a list of tokens. -/
def tokRun (r : Core × Clause) (ts : List Tok) : Except Stop (Core × Clause) := run (tokStep env incl) r ts

end

/-! ## Texts -/

/-- A token, or what may stand between tokens. -/
inductive Item where
  | tok (t : Tok)
  | space (c : Char)
  | comment (t : List Char)
deriving DecidableEq

/-- The characters of an item; a comment goes up to its newline. -/
def Item.text : Item → List Char
  | .tok (.word w) => w
  | .tok (.quoted q) => '"' :: q ++ ['"']
  | .tok .semi => [';']
  | .tok .lbrace => ['\x7b']
  | .tok .rbrace => ['\x7d']
  | .space c => [c]
  | .comment t => '#' :: t ++ ['\n']

/-- A character of a word. -/
def plain (c : Char) : Bool :=
  !isspace c && c ≠ '#' && c ≠ '"' && c ≠ ';' && c ≠ '\x7b' && c ≠ '\x7d' && c ≠ '\x00'

/-- An item whose characters are what it says. -/
def Item.Fine : Item → Prop
  | .tok (.word w) => w ≠ [] ∧ ∀ c ∈ w, plain c = true
  | .tok (.quoted q) => '"' ∉ q
  | .tok _ => True
  | .space c => isspace c = true
  | .comment t => '\n' ∉ t

instance (i : Item) : Decidable i.Fine :=
  match i with
  | .tok (.word w) => @instDecidableAnd (w ≠ []) _ _ (List.decidableBAll (fun c => plain c = true) w)
  | .tok (.quoted q) => inferInstanceAs (Decidable ('"' ∉ q))
  | .tok .semi | .tok .lbrace | .tok .rbrace => isTrue trivial
  | .space c => inferInstanceAs (Decidable (isspace c = true))
  | .comment t => inferInstanceAs (Decidable ('\n' ∉ t))

def textOf (items : List Item) : List Char := items.flatMap Item.text

def tokensOf (items : List Item) : List Tok :=
  items.filterMap (fun i => match i with | .tok t => some t | _ => none)

/-! ## Following the reader -/

/-- Between two items: a statement may begin, or one is read up to a stage. In front
    of a statement the buffer may hold block heads glued to their brace, and after
    `range A ;` the reader still thinks of a second address. `glued`: the buffer holds
    the first word of a statement with strings and words glued to it. `swallowed`: the
    semicolon of the statement only ended its first word, so that the reader still reads
    over what follows. -/
inductive Base where
  | fresh (heads : List Char) (second : Bool)
  | stage (s : Stage)
  | glued (word : List Char) (second : Bool)
  | swallowed
deriving DecidableEq

/-- `word`: a word that has not ended yet. `single` and `included`: the semicolon of
    `range A;` or `include F;` was read, but the word in front of it has not ended. -/
inductive Mode where
  | at (b : Base)
  | word (b : Base) (w : List Char)
  | single (w : List Char)
  | included (w : List Char)
deriving DecidableEq

def Base.clause : Base → Clause
  | .fresh _ _ | .swallowed => .fresh
  | .stage s => .stage s
  | .glued _ _ => .stage .skip

def Mode.base : Mode → Base
  | .at b => b
  | .word b _ => b
  | .single _ => .stage .first
  | .included _ => .stage .file

def Mode.clause (m : Mode) : Clause := m.base.clause

/-- The tokens that were read but have not taken effect. -/
def Mode.pending : Mode → List Tok
  | .at _ => []
  | .word _ w => [.word w]
  | .single w => [.word w, .semi]
  | .included w => [.word w, .semi]

def Stage.argument : Stage → IscConfParser
  | .skip | .opening | .ended => .ITS_NOTHING_INTERESTING
  | .first => .ITS_A_RANGE_FIRST_IP
  | .second => .ITS_A_RANGE_SECOND_IP
  | .name => .ITS_A_SHAREDNET
  | .subnet => .ITS_A_SUBNET
  | .mask => .ITS_A_NETMASK
  | .file => .ITS_AN_INCLUCE

/-- The variables of the reader. -/
def Base.lex : Base → Lex
  | .fresh heads second | .glued heads second =>
    ⟨true, false, false, false, if second then .ITS_A_RANGE_SECOND_IP else .ITS_NOTHING_INTERESTING, heads⟩
  | .stage s => ⟨s = .ended, false, s = .first, false, s.argument, []⟩
  | .swallowed => ⟨false, false, false, false, .ITS_NOTHING_INTERESTING, []⟩

def Mode.lex : Mode → Lex
  | .at b => b.lex
  | .word b w => { b.lex with word := b.lex.word ++ w }
  | .single w => ⟨false, false, true, false, .ITS_A_RANGE_SECOND_IP, w⟩
  | .included w => ⟨false, false, false, false, .ITS_AN_INCLUCE, w⟩

/-- A comment text that the reader skips: in these states it looks at a semicolon or
    an opening brace without asking whether it is in a comment. -/
def Harmless (l : Lex) (t : List Char) : Prop :=
  (';' ∈ t → ¬(l.argument = .ITS_A_RANGE_FIRST_IP ∧ l.oneIpRange = true) ∧
    ¬(l.argument = .ITS_A_RANGE_SECOND_IP ∧ l.word = [])) ∧
  ('\x7b' ∈ t → l.word ≠ [] ∨ l.newclause = true)

instance (l : Lex) (t : List Char) : Decidable (Harmless l t) :=
  inferInstanceAs (Decidable ((_ → _) ∧ (_ → _)))

section
variable (env : Env) (incl : List Char → Nat → Globals → Except Stop Globals)

def baseOf : Clause → Option Base
  | .fresh => some (.fresh [] false)
  | .stage s => some (.stage s)
  | .wrong => none

/-- Going on after tokens took effect; no answer if they are no statement. -/
def settle : Except Stop (Core × Clause) → Option (Except Stop (Mode × Core))
  | .error e => some (.error e)
  | .ok (k, c) => (baseOf c).map (fun b => .ok (.at b, k))

/-- A word of a statement without meaning. -/
def dull (w : List Char) : Bool := announced env w = .skip

/-- A first word, with what is glued to it, that the reader takes for no keyword and no block head. -/
def Passes (word : List Char) : Prop := dull env word ∧ word.getLast? ≠ some '\x7b' ∧ '\x00' ∉ word

instance (word : List Char) : Decidable (Passes env word) := inferInstanceAs (Decidable (_ ∧ _))

/-- A blank ends the word that is pending. -/
def commit (m : Mode) (k : Core) : Option (Except Stop (Mode × Core)) :=
  match m with
  | .at (.fresh heads second) => some (.ok (.at (.fresh [] (second && heads = [])), k))
  | .at (.glued word _) => if Passes env word then some (.ok (.at (.stage .skip), k)) else none
  | .at .swallowed => some (.ok (.at .swallowed, k))
  | m => settle (tokRun env incl (k, m.clause) m.pending)

/-- The first word of a statement goes on. One that is too long is forgotten, and the
    statement is read over. -/
def stick (word : List Char) (second : Bool) (k : Core) : Option (Except Stop (Mode × Core)) :=
  if word.length < MAXLEN then some (.ok (.at (.glued word second), k))
  else if second then none
  else some (.ok (.at (.stage .skip), k))

/-- A word goes into the buffer. -/
def put (b : Base) (w : List Char) (k : Core) : Option (Except Stop (Mode × Core)) :=
  match b with
  | .stage .ended => none
  | .stage .skip | .stage .opening => some (.ok (.at b, k))
  | .glued word second => stick (word ++ w) second k
  | .swallowed => if dull env w then some (.ok (.at (.stage .skip), k)) else none
  | .fresh heads second =>
    if heads.length + w.length < MAXLEN then some (.ok (.word b w, k))
    else if dull env w ∧ second = false then some (.ok (.at (.stage .skip), k))
    else none
  | .stage _ => if Lost w then some (.ok (.at b, k)) else some (.ok (.word b (leftover w), k))

def nextWord (m : Mode) (k : Core) (w : List Char) : Option (Except Stop (Mode × Core)) :=
  match m with
  | .at b => put env b w k
  | _ => none

def nextQuoted (m : Mode) (k : Core) (q : List Char) : Option (Except Stop (Mode × Core)) :=
  match m with
  | .at (.stage .skip) | .at (.stage .opening) => some (.ok (m, k))
  | .at (.stage .name) | .at (.stage .file) =>
    if quotedText q ≠ [] ∧ '\x00' ∉ q then some (.ok (.word m.base (quotedText q), k)) else none
  | .at (.glued word second) => stick (word ++ gluedText q) second k
  | .word (.fresh heads second) w => if dull env w then stick (heads ++ w ++ gluedText q) second k else none
  | _ => none

def nextSemi (m : Mode) (k : Core) : Option (Except Stop (Mode × Core)) :=
  match m with
  | .at (.fresh heads second) => if second = true ∧ heads = [] then none else some (.ok (.at (.fresh [] false), k))
  | .at (.stage .skip) | .at (.stage .ended) => some (.ok (.at (.fresh [] false), k))
  | .at (.stage .second) => some (.ok (.at (.fresh [] true), completeSingle k))
  | .at (.glued word second) =>
    if second = false then some (.ok (.at (.fresh [] false), k))
    else if Passes env word then some (.ok (.at .swallowed, k))
    else none
  | .at .swallowed => some (.ok (.at (.fresh [] false), k))
  | .word (.fresh _ second) w =>
    if dull env w then some (.ok (.at (if second then .swallowed else .fresh [] false), k)) else none
  | .word (.stage .first) w => some (.ok (.single w, k))
  | .word (.stage .second) w => settle (tokRun env incl (k, .stage .second) [.word w, .semi])
  | .word (.stage .file) w => some (.ok (.included w, k))
  | .single w => settle (tokRun env incl (k, .stage .first) [.word w, .semi, .semi])
  | .included w => some (.ok (.included w, k))
  | _ => none

/-- A brace is added to block heads that are in the buffer. -/
def addBrace (heads : List Char) : List Char := if heads = [] then [] else heads ++ ['\x7b']

def nextLbrace (m : Mode) (k : Core) : Option (Except Stop (Mode × Core)) :=
  match m with
  | .at (.fresh heads second) =>
    if (addBrace heads).length < MAXLEN then some (.ok (.at (.fresh (addBrace heads) second), k.opened)) else none
  | .at (.stage .skip) | .at (.stage .opening) | .at .swallowed => some (.ok (.at (.fresh [] false), k.opened))
  | .word (.fresh heads second) w =>
    if dull env w ∧ (heads ++ w ++ ['\x7b']).length < MAXLEN then
      some (.ok (.at (.fresh (heads ++ w ++ ['\x7b']) second), k.opened))
    else none
  | .at (.glued word second) =>
    if dull env word ∧ '\x00' ∉ word ∧ (word ++ ['\x7b']).length < MAXLEN then
      some (.ok (.at (.fresh (word ++ ['\x7b']) second), k.opened))
    else none
  | _ => none

def nextRbrace (m : Mode) (k : Core) : Option (Except Stop (Mode × Core)) :=
  match m with
  | .at (.fresh heads second) => some (.ok (.at (.fresh heads second), k.close))
  | .at .swallowed => some (.ok (.at (.fresh [] false), k.close))
  | _ => none

/-- What the reader makes of the next item. -/
def next (m : Mode) (k : Core) : Item → Option (Except Stop (Mode × Core))
  | .space _ => commit env incl m k
  | .comment t => if Harmless m.lex t then commit env incl m k else none
  | .tok (.word w) => nextWord env m k w
  | .tok (.quoted q) => nextQuoted env m k q
  | .tok .semi => nextSemi env incl m k
  | .tok .lbrace => nextLbrace env m k
  | .tok .rbrace => nextRbrace m k

/-- Where the reader is behind some items. -/
def follow : Mode → Core → List Item → Option (Except Stop (Mode × Core))
  | m, k, [] => some (.ok (m, k))
  | m, k, i :: rest =>
    match next env incl m k i with
    | none => none
    | some (.error e) => some (.error e)
    | some (.ok (m', k')) => follow m' k' rest

/-- The reader was followed, and no token is pending. -/
def Complete : Option (Except Stop (Mode × Core)) → Prop
  | none => False
  | some (.error _) => True
  | some (.ok (m, _)) => m.pending = []

instance : ∀ r, Decidable (Complete r)
  | none => isFalse id
  | some (.error _) => isTrue trivial
  | some (.ok (m, _)) => inferInstanceAs (Decidable (m.pending = []))

/-- A text that the reader follows: every item is met where the reader can take it, and
    no token is pending at the end. -/
def Laid (m : Mode) (k : Core) (items : List Item) : Prop := Complete (follow env incl m k items)

instance (m : Mode) (k : Core) (items : List Item) : Decidable (Laid env incl m k items) :=
  inferInstanceAs (Decidable (Complete _))

end

/-! ## Tokens take effect in order -/

section
variable {env : Env} {incl : List Char → Nat → Globals → Except Stop Globals}

theorem tokRun_single (r : Core × Clause) (t : Tok) : tokRun env incl r [t] = tokStep env incl r t := by
  rw [tokRun, run_cons]
  cases tokStep env incl r t <;> rfl

theorem settle_some {x : Except Stop (Core × Clause)} {r : Except Stop (Mode × Core)} (settled : settle x = some r) :
    x = (r >>= fun mk => tokRun env incl (mk.2, mk.1.clause) mk.1.pending) := by
  cases x with
  | error e =>
    obtain rfl := Option.some.inj settled
    rfl
  | ok kc =>
    obtain ⟨k, c⟩ := kc
    cases c with
    | fresh =>
      obtain rfl := Option.some.inj settled
      rfl
    | stage s =>
      obtain rfl := Option.some.inj settled
      rfl
    | wrong => cases settled

theorem commit_tokens {m : Mode} {k : Core} {r : Except Stop (Mode × Core)} (committed : commit env incl m k = some r) :
    tokRun env incl (k, m.clause) m.pending = (r >>= fun mk => tokRun env incl (mk.2, mk.1.clause) mk.1.pending) := by
  unfold commit at committed
  split at committed
  · obtain rfl := Option.some.inj committed
    rfl
  · split_ifs at committed
    obtain rfl := Option.some.inj committed
    rfl
  · obtain rfl := Option.some.inj committed
    rfl
  · exact settle_some committed

/-- The meaning of a word that fits into the buffer. -/
theorem announced_short {w : List Char} (room : w.length < MAXLEN) :
    announced env w = stageOf (isInterestingConfigClause env.allAsShared w) := if_pos room

theorem tokStep_word {w : List Char} (room : w.length < MAXLEN) (k : Core) (s : Stage) :
    tokStep env incl (k, .stage s) (.word w) = argument env incl k w s := by
  cases s with
  | skip | opening | ended => rfl
  | first | second | name | subnet | mask | file => exact (if_neg (not_lost room)).trans (by rw [leftover_short room])

theorem dull_kind {w : List Char} (room : w.length < MAXLEN) (nothing : dull env w = true) :
    isInterestingConfigClause env.allAsShared w = .ITS_NOTHING_INTERESTING := by
  have skips : announced env w = .skip := of_decide_eq_true nothing
  rw [announced_short room] at skips
  generalize isInterestingConfigClause env.allAsShared w = kind at skips ⊢
  cases kind <;> first | rfl | cases skips

theorem dull_step {w : List Char} (nothing : dull env w = true) (k : Core) :
    tokStep env incl (k, .fresh) (.word w) = .ok (k, .stage .skip) := by
  have skips : announced env w = .skip := of_decide_eq_true nothing
  simp only [tokStep, skips]

theorem dull_tokens {w : List Char} (nothing : dull env w = true) (k : Core) (t : Tok) :
    tokRun env incl (k, .fresh) [.word w, t] = tokStep env incl (k, .stage .skip) t := by
  rw [tokRun, run_ok _ (dull_step nothing k), run_cons]
  cases tokStep env incl (k, .stage .skip) t <;> rfl

theorem stick_tokens {word : List Char} {second : Bool} {k : Core} {r : Except Stop (Mode × Core)}
    (taken : stick word second k = some r) :
    (.ok (k, .stage .skip) : Except Stop (Core × Clause)) =
      (r >>= fun mk => tokRun env incl (mk.2, mk.1.clause) mk.1.pending) := by
  unfold stick at taken
  split_ifs at taken <;> (obtain rfl := Option.some.inj taken; rfl)

theorem put_tokens {b : Base} {w : List Char} {k : Core} {r : Except Stop (Mode × Core)} (taken : put env b w k = some r) :
    tokRun env incl (k, b.clause) [.word w] = (r >>= fun mk => tokRun env incl (mk.2, mk.1.clause) mk.1.pending) := by
  unfold put at taken
  split at taken
  · cases taken
  · obtain rfl := Option.some.inj taken
    rfl
  · obtain rfl := Option.some.inj taken
    rfl
  · exact stick_tokens taken
  · split_ifs at taken with nothing
    obtain rfl := Option.some.inj taken
    exact run_ok _ (dull_step nothing k) []
  · split_ifs at taken with room forgotten
    · obtain rfl := Option.some.inj taken
      rfl
    · obtain rfl := Option.some.inj taken
      exact run_ok _ (dull_step forgotten.1 k) []
  · rename_i s _ _ _
    have behind : tokRun env incl (k, .stage s) [.word w] = tokStep env incl (k, .stage s) (.word w) := tokRun_single ..
    split_ifs at taken with lost
    · obtain rfl := Option.some.inj taken
      cases s <;> first | contradiction | exact behind.trans (if_pos lost)
    · obtain rfl := Option.some.inj taken
      have again : tokStep env incl (k, .stage s) (.word (leftover w)) = tokStep env incl (k, .stage s) (.word w) := by
        rw [tokStep_word (leftover_length w)]
        cases s <;> first | contradiction | exact (if_neg lost).symm
      exact behind.trans (again.symm.trans (tokRun_single ..).symm)

/-- An empty statement behind an include statement means nothing. -/
theorem included_semi (k : Core) (w : List Char) :
    tokRun env incl (k, .stage .file) [.word w, .semi, .semi] = tokRun env incl (k, .stage .file) [.word w, .semi] := by
  have first : tokStep env incl (k, .stage .file) (.word w) = if Lost w then .ok (k, .stage .file)
      else incl (leftover w) k.sharedP k.g >>= fun g => .ok ({ k with g := g }, .stage .ended) := rfl
  rw [tokRun, tokRun, run_cons, run_cons, first]
  split_ifs
  · rfl
  · cases incl (leftover w) k.sharedP k.g <;> rfl

theorem quoted_step {s : Stage} (named : s = .name ∨ s = .file) {q : List Char} (filled : quotedText q ≠ [])
    (k : Core) : tokStep env incl (k, .stage s) (.quoted q) = tokStep env incl (k, .stage s) (.word (quotedText q)) := by
  rw [tokStep_word (quotedText_length q)]
  rcases named with rfl | rfl
  · exact if_neg filled
  · exact if_neg filled

theorem quoted_tokens {s : Stage} (named : s = .name ∨ s = .file) {q : List Char} (filled : quotedText q ≠ [])
    (k : Core) : tokRun env incl (k, .stage s) [.quoted q] =
      tokRun env incl (k, .stage s) [.word (quotedText q)] := by
  rw [tokRun_single, tokRun_single, quoted_step named filled]

/-- What `next` answers for an item is what its token means, after the tokens that are pending. -/
theorem next_tokens {m : Mode} {k : Core} {i : Item} {r : Except Stop (Mode × Core)} (followed : next env incl m k i = some r) :
    tokRun env incl (k, m.clause) (m.pending ++ tokensOf [i]) =
      (r >>= fun mk => tokRun env incl (mk.2, mk.1.clause) mk.1.pending) := by
  cases i with
  | space c => simpa [tokensOf] using commit_tokens followed
  | comment t =>
    change (if Harmless m.lex t then commit env incl m k else none) = some r at followed
    split_ifs at followed
    simpa [tokensOf] using commit_tokens followed
  | tok t =>
    cases t with
    | word w =>
      change nextWord env m k w = some r at followed
      unfold nextWord at followed
      split at followed
      · exact put_tokens followed
      · cases followed
    | quoted q =>
      change nextQuoted env m k q = some r at followed
      unfold nextQuoted at followed
      split at followed
      · obtain rfl := Option.some.inj followed
        rfl
      · obtain rfl := Option.some.inj followed
        rfl
      · split_ifs at followed with filled
        obtain rfl := Option.some.inj followed
        exact quoted_tokens (Or.inl rfl) filled.1 k
      · split_ifs at followed with filled
        obtain rfl := Option.some.inj followed
        exact quoted_tokens (Or.inr rfl) filled.1 k
      · exact stick_tokens followed
      · split_ifs at followed with dullWord
        rw [← stick_tokens followed]
        exact dull_tokens dullWord k (.quoted q)
      · cases followed
    | semi =>
      change nextSemi env incl m k = some r at followed
      unfold nextSemi at followed
      split at followed
      · split_ifs at followed
        obtain rfl := Option.some.inj followed
        rfl
      · obtain rfl := Option.some.inj followed
        rfl
      · obtain rfl := Option.some.inj followed
        rfl
      · obtain rfl := Option.some.inj followed
        rfl
      · split_ifs at followed <;> (obtain rfl := Option.some.inj followed; rfl)
      · obtain rfl := Option.some.inj followed
        rfl
      · split_ifs at followed with nothing second <;>
          (obtain rfl := Option.some.inj followed; exact dull_tokens nothing k .semi)
      · obtain rfl := Option.some.inj followed
        rfl
      · exact settle_some followed
      · obtain rfl := Option.some.inj followed
        rfl
      · exact settle_some followed
      · obtain rfl := Option.some.inj followed
        exact included_semi k _
      · cases followed
    | lbrace =>
      change nextLbrace env m k = some r at followed
      unfold nextLbrace at followed
      split at followed
      · split_ifs at followed
        obtain rfl := Option.some.inj followed
        rfl
      · obtain rfl := Option.some.inj followed
        rfl
      · obtain rfl := Option.some.inj followed
        rfl
      · obtain rfl := Option.some.inj followed
        rfl
      · split_ifs at followed with filled
        obtain rfl := Option.some.inj followed
        exact dull_tokens filled.1 k .lbrace
      · split_ifs at followed
        obtain rfl := Option.some.inj followed
        rfl
      · cases followed
    | rbrace =>
      change nextRbrace m k = some r at followed
      unfold nextRbrace at followed
      split at followed
      · obtain rfl := Option.some.inj followed
        rfl
      · obtain rfl := Option.some.inj followed
        rfl
      · cases followed

end

end DhcpdPools.ConfigTokens
