import DhcpdPools.ConfigCanonical

/-!
Include statements. `inline` puts the text of a file in the place of every statement
that includes it, `splice` does the same with trees; both agree (`inline_splice`) and
keep the canonical layout.
-/
namespace DhcpdPools.ConfigInclude
open Machine ConfigReader ConfigTokens ConfigReading ConfigTree ConfigCanonical

/-! ## Inlining texts -/

/-- How far the copy of a text is in a statement: an include statement is not copied. -/
inductive Copy where
  | fresh
  | inside
  | keyword
  | named (f : List Char)
deriving DecidableEq

section
variable (env : Env)

def Copy.after : Copy → Tok → Copy
  | .fresh, .word w =>
    if isInterestingConfigClause env.allAsShared w = .ITS_AN_INCLUCE then .keyword else .inside
  | .keyword, .word f => .named f
  | .keyword, .quoted f => .named f
  | .keyword, _ => .keyword
  | .named _, .semi => .fresh
  | .named f, _ => .named f
  | _, .word _ => .inside
  | _, .quoted _ => .inside
  | _, _ => .fresh

/-- What is written for a token: at the end of an include statement the file. -/
def Copy.output {α : Type} (write : Tok → α) (content : List Char → List α) (c : Copy) (t : Tok) : List α :=
  match c with
  | .keyword => []
  | .named f => if t = .semi then content f else []
  | .fresh => if c.after env t = .keyword then [] else [write t]
  | .inside => [write t]

/-- Blanks and comments are copied with the statement they stand in. -/
def Copy.blanks (c : Copy) (i : Item) : List Item :=
  match c with
  | .fresh | .inside => [i]
  | .keyword | .named _ => []

/-- The text with each include statement replaced by the content of the file. -/
def inline (content : List Char → List Item) : Copy → List Item → List Item
  | _, [] => []
  | c, .tok t :: rest => c.output env Item.tok content t ++ inline content (c.after env t) rest
  | c, .space s :: rest => c.blanks (.space s) ++ inline content c rest
  | c, .comment t :: rest => c.blanks (.comment t) ++ inline content c rest

def inlineTokens (content : List Char → List Tok) : Copy → List Tok → List Tok
  | _, [] => []
  | c, t :: ts => c.output env id content t ++ inlineTokens content (c.after env t) ts

end

section
variable {env : Env} {content : List Char → List Item}

theorem tokensOf_append (xs ys : List Item) : tokensOf (xs ++ ys) = tokensOf xs ++ tokensOf ys := List.filterMap_append

theorem inline_tokens {items : List Item} : ∀ {c : Copy}, tokensOf (inline env content c items) =
    inlineTokens env (fun f => tokensOf (content f)) c (tokensOf items) := by
  induction items with
  | nil => exact rfl
  | cons i rest ih =>
    intro c
    cases i with
    | tok t =>
      have head : tokensOf (c.output env Item.tok content t) = c.output env id (fun f => tokensOf (content f)) t := by
        cases c <;> unfold Copy.output <;> simp only <;> first | rfl | (split_ifs <;> rfl)
      have tokens : tokensOf (.tok t :: rest) = t :: tokensOf rest := rfl
      rw [inline, tokensOf_append, ih, tokens, inlineTokens, head]
    | space s =>
      rw [inline, tokensOf_append, ih]
      cases c <;> rfl
    | comment t =>
      rw [inline, tokensOf_append, ih]
      cases c <;> rfl

theorem blanks_mem {c : Copy} {i j : Item} (member : i ∈ c.blanks j) : i = j := by
  cases c <;> simp only [Copy.blanks, List.mem_singleton, List.not_mem_nil] at member <;> exact member

theorem inline_fine {items : List Item} (contents : ∀ f, ∀ i ∈ content f, i.Fine) : ∀ {c : Copy},
    (∀ i ∈ items, i.Fine) → ∀ i ∈ inline env content c items, i.Fine := by
  induction items with
  | nil => exact fun _ i member => absurd member List.not_mem_nil
  | cons j rest ih =>
    intro c fine i member
    have head := fine j List.mem_cons_self
    have later := fun i member => fine i (List.mem_cons_of_mem j member)
    cases j with
    | tok t =>
      rw [inline] at member
      rcases List.mem_append.mp member with written | rest
      · cases c <;> unfold Copy.output at written <;> simp only at written
        · split_ifs at written
          · cases written
          · rwa [List.mem_singleton.mp written]
        · rwa [List.mem_singleton.mp written]
        · cases written
        · split_ifs at written
          · exact contents _ i written
          · cases written
      · exact ih later i rest
    | space s =>
      rw [inline] at member
      rcases List.mem_append.mp member with written | rest
      · rwa [blanks_mem written]
      · exact ih later i rest
    | comment t =>
      rw [inline] at member
      rcases List.mem_append.mp member with written | rest
      · rwa [blanks_mem written]
      · exact ih later i rest

theorem canonical_append {xs ys : List Item} (behind : Canonical .blank false ys) : ∀ {front : Front} {inside : Bool},
    Canonical front inside xs → Canonical front inside (xs ++ ys) := by
  induction xs with
  | nil =>
    rintro front inside ⟨rfl, rfl⟩
    exact behind
  | cons i rest ih =>
    intro front inside canonical
    cases i with
    | space c => exact ih canonical
    | comment t => exact ⟨canonical.1, canonical.2.1, ih canonical.2.2⟩
    | tok t => cases t <;> exact ⟨canonical.1, ih canonical.2⟩

/-- Behind a semicolon there is a blank. -/
theorem canonical_mark {items : List Item} {inside : Bool} (canonical : Canonical .mark inside items) :
    Canonical .blank inside items := by
  cases items with
  | nil => cases canonical.1
  | cons i rest =>
    cases i with
    | space c => exact canonical
    | comment t => cases canonical.1
    | tok t => cases t <;> cases canonical.1

/-- What stands in front of the next item in the copy. -/
def Copy.front (c : Copy) (front : Front) : Front :=
  match c with
  | .fresh | .inside => front
  | .keyword | .named _ => .blank

/-- Inlining keeps the canonical layout. -/
theorem inline_canonical {items : List Item} (contents : ∀ f, Canonical .blank false (content f)) :
    ∀ {front : Front} {inside : Bool} {c : Copy}, Canonical front inside items → (c = .fresh → inside = false) →
      (c = .inside → inside = true) → Canonical (c.front front) (c = .inside) (inline env content c items) := by
  induction items with
  | nil =>
    rintro front inside c ⟨rfl, rfl⟩ _ within
    refine ⟨by cases c <;> rfl, decide_eq_false (fun same => ?_)⟩
    cases within same
  | cons i rest ih =>
    intro front inside c canonical fresh within
    cases i with
    | space s =>
      have later := @ih .blank inside c canonical fresh within
      cases c <;> exact later
    | comment t =>
      obtain ⟨rfl, rfl, canonical⟩ := canonical
      cases c with
      | fresh => exact ⟨rfl, rfl, @ih .blank false .fresh canonical (fun _ => rfl) (fun no => by cases no)⟩
      | inside => cases within rfl
      | keyword => exact @ih .blank false .keyword canonical (fun no => by cases no) (fun no => by cases no)
      | named f => exact @ih .blank false (.named f) canonical (fun no => by cases no) (fun no => by cases no)
    | tok t =>
      cases c with
      | keyword =>
        have later : ∀ {front' inside'}, Canonical front' inside' rest → ∀ {c' : Copy}, c' ≠ .fresh → c' ≠ .inside →
            Canonical .blank false (inline env content c' rest) := by
          intro front' inside' canonical c' other other'
          have := @ih front' inside' c' canonical (fun same => absurd same other) (fun same => absurd same other')
          rw [decide_eq_false other'] at this
          cases c' with
          | fresh => exact absurd rfl other
          | inside => exact absurd rfl other'
          | keyword => exact this
          | named f => exact this
        cases t <;> exact later canonical.2 (fun no => by cases no) (fun no => by cases no)
      | named f =>
        have skipped : ∀ {front' inside'}, Canonical front' inside' rest →
            Canonical .blank false (inline env content (.named f) rest) := fun canonical =>
          @ih _ _ (.named f) canonical (fun no => by cases no) (fun no => by cases no)
        cases t with
        | semi =>
          have behind := @ih .mark false .fresh canonical.2 (fun _ => rfl) (fun no => by cases no)
          exact canonical_append (canonical_mark behind) (contents f)
        | word w => exact skipped canonical.2
        | quoted q => exact skipped canonical.2
        | lbrace => exact skipped canonical.2
        | rbrace => exact skipped canonical.2
      | fresh =>
        cases t with
        | word w =>
          by_cases kind : isInterestingConfigClause env.allAsShared w = .ITS_AN_INCLUCE
          · have after : Copy.fresh.after env (.word w) = .keyword := if_pos kind
            obtain ⟨rfl, canonical⟩ := canonical
            have later := @ih _ _ .keyword canonical (fun no => by cases no) (fun no => by cases no)
            rw [inline, Copy.output, after]
            exact later
          · have after : Copy.fresh.after env (.word w) = .inside := if_neg kind
            rw [inline, Copy.output, after]
            exact ⟨canonical.1, @ih _ _ .inside canonical.2 (fun no => by cases no) (fun _ => rfl)⟩
        | quoted q => exact ⟨canonical.1, @ih _ _ .inside canonical.2 (fun no => by cases no) (fun _ => rfl)⟩
        | semi => exact ⟨canonical.1, @ih _ _ .fresh canonical.2 (fun _ => rfl) (fun no => by cases no)⟩
        | lbrace => exact ⟨canonical.1, @ih _ _ .fresh canonical.2 (fun _ => rfl) (fun no => by cases no)⟩
        | rbrace => exact ⟨canonical.1, @ih _ _ .fresh canonical.2 (fun _ => rfl) (fun no => by cases no)⟩
      | inside =>
        cases t with
        | word w => exact ⟨canonical.1, @ih _ _ .inside canonical.2 (fun no => by cases no) (fun _ => rfl)⟩
        | quoted q => exact ⟨canonical.1, @ih _ _ .inside canonical.2 (fun no => by cases no) (fun _ => rfl)⟩
        | semi => exact ⟨canonical.1, @ih _ _ .fresh canonical.2 (fun _ => rfl) (fun no => by cases no)⟩
        | lbrace => exact ⟨canonical.1, @ih _ _ .fresh canonical.2 (fun _ => rfl) (fun no => by cases no)⟩
        | rbrace => exact ⟨canonical.1, @ih _ _ .fresh canonical.2 (fun _ => rfl) (fun no => by cases no)⟩

/-- A canonical text stays canonical. -/
theorem inline_closed {items : List Item} (contents : ∀ f, Canonical .blank false (content f))
    (canonical : Canonical .blank false items) : Canonical .blank false (inline env content .fresh items) :=
  @inline_canonical env content items contents .blank false .fresh canonical (fun _ => rfl) (fun no => by cases no)

end

/-! ## Inlining trees -/

/-- One tree behind the other. -/
def append : Config → Config → Config
  | .done, U => U
  | .other keyword args rest, U => .other keyword args (append rest U)
  | .range keyword flag first second rest, U => .range keyword flag first second (append rest U)
  | .included keyword file rest, U => .included keyword file (append rest U)
  | .network keyword name body rest, U => .network keyword name body (append rest U)
  | .subnet keyword net mask body rest, U => .subnet keyword net mask body (append rest U)
  | .block keyword args body rest, U => .block keyword args body (append rest U)

/-- The name as it is written. -/
def raw : Arg → List Char
  | .word w => w
  | .quoted q => q

/-- Every include statement is replaced by the tree of its file. -/
def splice (tree : List Char → Config) : Config → Config
  | .done => .done
  | .other keyword args rest => .other keyword args (splice tree rest)
  | .range keyword flag first second rest => .range keyword flag first second (splice tree rest)
  | .included _ file rest => append (tree (raw file)) (splice tree rest)
  | .network keyword name body rest => .network keyword name (splice tree body) (splice tree rest)
  | .subnet keyword net mask body rest => .subnet keyword net mask (splice tree body) (splice tree rest)
  | .block keyword args body rest => .block keyword args (splice tree body) (splice tree rest)

theorem append_tokens (T U : Config) : (append T U).tokens = T.tokens ++ U.tokens := by
  induction T with
  | done => rfl
  | other keyword args rest ih => simp [append, Config.tokens, ih]
  | range keyword flag first second rest ih => simp [append, Config.tokens, ih]
  | included keyword file rest ih => simp [append, Config.tokens, ih]
  | network keyword name body rest _ ih => simp [append, Config.tokens, ih]
  | subnet keyword net mask body rest _ ih => simp [append, Config.tokens, ih]
  | block keyword args body rest _ ih => simp [append, Config.tokens, ih]

section
variable {env : Env} {v : DhcpVersion} {tree : List Char → Config}

theorem append_valid {T U : Config} (validU : U.Valid env v) : T.Valid env v → (append T U).Valid env v := by
  induction T with
  | done => exact fun _ => validU
  | other keyword args rest ih => exact fun h => ⟨h.1, ih h.2⟩
  | range keyword flag first second rest ih => exact fun ⟨k, f, a, b, h⟩ => ⟨k, f, a, b, ih h⟩
  | included keyword file rest ih => exact fun ⟨k, f, h⟩ => ⟨k, f, ih h⟩
  | network keyword name body rest _ ih => exact fun ⟨k, f, b, h⟩ => ⟨k, f, b, ih h⟩
  | subnet keyword net mask body rest _ ih => exact fun ⟨k, f, b, h⟩ => ⟨k, f, b, ih h⟩
  | block keyword args body rest _ ih => exact fun ⟨k, b, h⟩ => ⟨k, b, ih h⟩

theorem splice_valid {T : Config} (trees : ∀ f, (tree f).Valid env v) : T.Valid env v → (splice tree T).Valid env v := by
  induction T with
  | done => exact fun _ => trivial
  | other keyword args rest ih => exact fun h => ⟨h.1, ih h.2⟩
  | range keyword flag first second rest ih => exact fun ⟨k, f, a, b, h⟩ => ⟨k, f, a, b, ih h⟩
  | included keyword file rest ih => exact fun ⟨_, _, h⟩ => append_valid (ih h) (trees (raw file))
  | network keyword name body rest ihBody ih => exact fun ⟨k, f, b, h⟩ => ⟨k, f, ihBody b, ih h⟩
  | subnet keyword net mask body rest ihBody ih => exact fun ⟨k, f, b, h⟩ => ⟨k, f, ihBody b, ih h⟩
  | block keyword args body rest ihBody ih => exact fun ⟨k, b, h⟩ => ⟨k, ihBody b, ih h⟩

theorem append_includes {T U : Config} : (append T U).includes = T.includes ++ U.includes := by
  induction T with
  | done => rfl
  | other keyword args rest ih => exact ih
  | range keyword flag first second rest ih => exact ih
  | included keyword file rest ih => exact congrArg (List.cons file) ih
  | network keyword name body rest _ ih =>
    simp [append, Config.includes, ih]
  | subnet keyword net mask body rest _ ih =>
    simp [append, Config.includes, ih]
  | block keyword args body rest _ ih =>
    simp [append, Config.includes, ih]

/-- Nothing is left to include. -/
theorem splice_includes {T : Config} (trees : ∀ f, (tree f).includes = []) : (splice tree T).includes = [] := by
  induction T with
  | done => rfl
  | other keyword args rest ih => exact ih
  | range keyword flag first second rest ih => exact ih
  | included keyword file rest ih => rw [splice, append_includes, trees, ih, List.append_nil]
  | network keyword name body rest ihBody ih => rw [splice, Config.includes, ihBody, ih, List.append_nil]
  | subnet keyword net mask body rest ihBody ih => rw [splice, Config.includes, ihBody, ih, List.append_nil]
  | block keyword args body rest ihBody ih => rw [splice, Config.includes, ihBody, ih, List.append_nil]

theorem splice_none {T : Config} (none : T.includes = []) : splice tree T = T := by
  induction T with
  | done => rfl
  | other keyword args rest ih => exact congrArg (Config.other keyword args) (ih none)
  | range keyword flag first second rest ih => exact congrArg (Config.range keyword flag first second) (ih none)
  | included keyword file rest ih => cases none
  | network keyword name body rest ihBody ih =>
    obtain ⟨one, two⟩ := List.append_eq_nil_iff.mp none
    rw [splice, ihBody one, ih two]
  | subnet keyword net mask body rest ihBody ih =>
    obtain ⟨one, two⟩ := List.append_eq_nil_iff.mp none
    rw [splice, ihBody one, ih two]
  | block keyword args body rest ihBody ih =>
    obtain ⟨one, two⟩ := List.append_eq_nil_iff.mp none
    rw [splice, ihBody one, ih two]

theorem append_proper {T U : Config} : ∀ {inside : Bool}, (append T U).Proper env inside ↔
    T.Proper env inside ∧ U.Proper env inside := by
  induction T with
  | done => exact (and_iff_right trivial).symm
  | other keyword args rest ih => exact ih
  | range keyword flag first second rest ih => exact ih
  | included keyword file rest ih => exact ih
  | network keyword name body rest _ ih =>
    intro inside
    simp only [append, Config.Proper, ih, and_assoc]
  | subnet keyword net mask body rest _ ih =>
    intro inside
    simp only [append, Config.Proper, ih, and_assoc]
  | block keyword args body rest _ ih =>
    intro inside
    simp only [append, Config.Proper, ih, and_assoc]

/-- Networks are nested nowhere if they are not nested in the tree and not across files. -/
theorem splice_proper {T : Config} : ∀ {inside : Bool}, (splice tree T).Proper env inside →
    T.Proper env inside ∧ T.Includes env (fun inside file => (tree (raw file)).Proper env inside) inside := by
  induction T with
  | done => exact fun _ => ⟨trivial, trivial⟩
  | other keyword args rest ih => exact ih
  | range keyword flag first second rest ih => exact ih
  | included keyword file rest ih =>
    intro inside proper
    obtain ⟨here, later⟩ := append_proper.mp proper
    exact ⟨(ih later).1, here, (ih later).2⟩
  | network keyword name body rest ihBody ih =>
    exact fun ⟨o, b, r⟩ => ⟨⟨o, (ihBody b).1, (ih r).1⟩, (ihBody b).2, (ih r).2⟩
  | subnet keyword net mask body rest ihBody ih =>
    exact fun ⟨b, r⟩ => ⟨⟨(ihBody b).1, (ih r).1⟩, (ihBody b).2, (ih r).2⟩
  | block keyword args body rest ihBody ih =>
    exact fun ⟨b, r⟩ => ⟨⟨(ihBody b).1, (ih r).1⟩, (ihBody b).2, (ih r).2⟩

/-- Arguments are copied. -/
theorem inline_args {content : List Char → List Tok} (args : List Arg) (ts : List Tok) :
    inlineTokens env content .inside (args.map Arg.tok ++ ts) =
      args.map Arg.tok ++ inlineTokens env content .inside ts := by
  induction args with
  | nil => rfl
  | cons a args ih => cases a <;> exact congrArg (List.cons _) ih

theorem inline_word {content : List Char → List Tok} {kind : IscConfParser} {w : List Char} (keyword : Keyword env kind w)
    (other : kind ≠ .ITS_AN_INCLUCE) (ts : List Tok) :
    inlineTokens env content .fresh (.word w :: ts) = .word w :: inlineTokens env content .inside ts := by
  have after : Copy.fresh.after env (.word w) = .inside := by
    unfold Copy.after
    simp only
    rw [keyword.1, if_neg other]
  rw [inlineTokens, Copy.output, after]
  rfl

/-- The inlined tokens are those of the tree with the files in place. -/
theorem inline_splice {content : List Char → List Tok} (contents : ∀ f, content f = (tree f).tokens) {T : Config} :
    ∀ {ts : List Tok}, T.Valid env v → inlineTokens env content .fresh (T.tokens ++ ts) =
      (splice tree T).tokens ++ inlineTokens env content .fresh ts := by
  induction T with
  | done => exact fun _ => rfl
  | other keyword args rest ih =>
    intro ts valid
    simp only [Config.tokens, splice, List.cons_append, List.append_assoc]
    rw [inline_word valid.1 (by decide), inline_args]
    exact congrArg (fun us => _ :: (_ ++ .semi :: us)) (ih valid.2)
  | range keyword flag first second rest ih =>
    intro ts valid
    simp only [Config.tokens, splice, List.cons_append, List.append_assoc]
    rw [inline_word valid.1 (by decide)]
    cases flag <;> cases second <;>
      simp [words, inlineTokens, Copy.output, Copy.after, ih valid.2.2.2.2]
  | included keyword file rest ih =>
    intro ts valid
    have after : Copy.fresh.after env (.word keyword) = .keyword := if_pos valid.1.1
    simp only [Config.tokens, splice, List.cons_append, append_tokens, List.append_assoc, ← ih valid.2.2, ← contents]
    rw [inlineTokens, Copy.output, after]
    cases file <;> rfl
  | network keyword name body rest ihBody ihRest =>
    intro ts valid
    simp only [Config.tokens, splice, List.cons_append, List.append_assoc]
    rw [inline_word valid.1 (by decide), ← ihRest valid.2.2.2]
    have inner := @ihBody (.rbrace :: (rest.tokens ++ ts)) valid.2.2.1
    cases name <;> exact congrArg (fun us => _ :: _ :: .lbrace :: us) inner
  | subnet keyword net mask body rest ihBody ihRest =>
    intro ts valid
    simp only [Config.tokens, splice, List.cons_append, List.append_assoc]
    rw [inline_word valid.1 (by split_ifs <;> decide), ← ihRest valid.2.2.2]
    have inner := @ihBody (.rbrace :: (rest.tokens ++ ts)) valid.2.2.1
    cases mask with
    | none => exact congrArg (fun us => _ :: _ :: .lbrace :: us) inner
    | some m => exact congrArg (fun us => _ :: _ :: _ :: _ :: .lbrace :: us) inner
  | block keyword args body rest ihBody ihRest =>
    intro ts valid
    simp only [Config.tokens, splice, List.cons_append, List.append_assoc]
    rw [inline_word valid.1 (by decide), inline_args, ← ihRest valid.2.2]
    exact congrArg (fun us => _ :: (_ ++ .lbrace :: us)) (@ihBody (.rbrace :: (rest.tokens ++ ts)) valid.2.1)

end

end DhcpdPools.ConfigInclude
