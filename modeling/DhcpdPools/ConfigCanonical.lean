import DhcpdPools.ConfigReading
import DhcpdPools.ConfigMeaning

/-!
The canonical layout: blanks between tokens, each semicolon right behind the token
before it and in front of a blank, blanks around every brace, comments between
statements only. The reader follows it (`canonical_laid`), so a file in this layout
has the effect of its tree (`readFile_effect`).
-/
namespace DhcpdPools.ConfigCanonical
open Machine ConfigReader ConfigTokens ConfigReading ConfigTree ConfigMeaning

/-- What stands in front of an item: a blank or nothing, a word or string, or one of `;{}`. -/
inductive Front where
  | blank
  | word
  | mark
deriving DecidableEq

/-- The canonical layout; `inside` says that a statement has begun. -/
def Canonical : Front → Bool → List Item → Prop
  | front, inside, [] => front = .blank ∧ inside = false
  | _, inside, .space _ :: rest => Canonical .blank inside rest
  | front, inside, .comment _ :: rest => front = .blank ∧ inside = false ∧ Canonical .blank false rest
  | front, _, .tok (.word _) :: rest => front = .blank ∧ Canonical .word true rest
  | front, _, .tok (.quoted _) :: rest => front = .blank ∧ Canonical .word true rest
  | front, _, .tok .semi :: rest => front = .word ∧ Canonical .mark false rest
  | front, _, .tok .lbrace :: rest => front = .blank ∧ Canonical .mark false rest
  | front, _, .tok .rbrace :: rest => front = .blank ∧ Canonical .mark false rest

section
variable {env : Env} {incl : List Char → Nat → Globals → Except Stop Globals}

/-- Where the reader may be in a canonical text. -/
def Stands (front : Front) (inside : Bool) (m : Mode) : Prop :=
  match front with
  | .blank => m = .at (.fresh [] false) ∨ inside = true ∧ ∃ s, m = .at (.stage s)
  | .word => inside = true ∧ ((∃ w, m = .word (.fresh [] false) w) ∨
      (∃ s w, m = .word (.stage s) w ∧ s ≠ .skip ∧ s ≠ .opening ∧ s ≠ .ended) ∨
      m = .at (.stage .skip) ∨ m = .at (.stage .opening))
  | .mark => inside = false ∧ (m = .at (.fresh [] false) ∨ ∃ w, m = .single w ∨ m = .included w)

theorem settle_right {r : Core × Clause} (right : r.2 ≠ .wrong) : ∃ b, settle (.ok r) = some (.ok (.at b, r.1)) ∧
    b.clause = r.2 ∧ (r.2 = .fresh ∧ b = .fresh [] false ∨ ∃ s, b = .stage s) := by
  obtain ⟨k, c⟩ := r
  cases c with
  | fresh => exact ⟨_, rfl, rfl, Or.inl ⟨rfl, rfl⟩⟩
  | stage s => exact ⟨_, rfl, rfl, Or.inr ⟨s, rfl⟩⟩
  | wrong => exact absurd rfl right

theorem semi_fresh {r r' : Core × Clause} (ok : tokStep env incl r .semi = .ok r') (right : r'.2 ≠ .wrong) :
    r'.2 = .fresh := by
  obtain ⟨k, c⟩ := r
  cases c with
  | fresh =>
    cases ok
    rfl
  | wrong =>
    cases ok
    exact absurd rfl right
  | stage s =>
    cases s <;> cases ok <;> first | rfl | exact absurd rfl right

theorem pending_semi {r r' : Core × Clause} {t : Tok} (ok : tokRun env incl r [t, .semi] = .ok r') (right : r'.2 ≠ .wrong) :
    r'.2 = .fresh := by
  obtain ⟨r1, -, last⟩ := bind_ok ok
  exact semi_fresh ((run_one ..).symm.trans last) right

theorem clause_right (m : Mode) : m.clause ≠ .wrong := by
  cases m with
  | «at» b => cases b <;> exact fun same => by cases same
  | word b w => cases b <;> exact fun same => by cases same
  | single w => exact fun same => by cases same
  | included w => exact fun same => by cases same

/-- A blank ends the word that is pending. -/
theorem commit_stands {front : Front} {inside : Bool} {m : Mode} {k : Core} {ts : List Tok}
    {x : Except Stop (Core × Clause)} (stands : Stands front inside m)
    (meant : Meant env incl (k, m.clause) (m.pending ++ ts) x) :
    ∃ r, commit env incl m k = some r ∧ ∀ m' k', r = .ok (m', k') →
      Stands .blank inside m' ∧ Meant env incl (k', m'.clause) (m'.pending ++ ts) x := by
  have settled : commit env incl m k = settle (tokRun env incl (k, m.clause) m.pending) →
      (∀ r', tokRun env incl (k, m.clause) m.pending = .ok r' → r'.2 ≠ .wrong → inside = true ∨ r'.2 = .fresh) →
      ∃ r, commit env incl m k = some r ∧ ∀ m' k', r = .ok (m', k') →
        Stands .blank inside m' ∧ Meant env incl (k', m'.clause) (m'.pending ++ ts) x := by
    intro same fresh
    rw [same]
    rcases Meant.split (clause_right m) meant with ⟨r', ok, right, rest⟩ | ⟨e, error⟩
    · obtain ⟨b, settled, clause, place⟩ := settle_right right
      rw [ok, settled]
      refine ⟨_, rfl, ?_⟩
      rintro m' k' ⟨⟩
      constructor
      · rcases place with ⟨-, rfl⟩ | ⟨s, rfl⟩
        · exact Or.inl rfl
        · refine Or.inr ⟨(fresh r' ok right).resolve_right ?_, s, rfl⟩
          rw [← clause]
          exact fun same => by cases same
      · change Meant env incl (r'.1, b.clause) ts x
        rw [clause]
        exact rest
    · rw [error]
      exact ⟨_, rfl, fun m' k' same => by cases same⟩
  cases front with
  | blank =>
    rcases stands with rfl | ⟨rfl, s, rfl⟩
    · refine ⟨_, rfl, ?_⟩
      rintro m' k' ⟨⟩
      exact ⟨Or.inl rfl, meant⟩
    · exact settled rfl (fun _ _ _ => Or.inl rfl)
  | word =>
    obtain ⟨rfl, ⟨w, rfl⟩ | ⟨s, w, rfl, -⟩ | rfl | rfl⟩ := stands <;> exact settled rfl (fun _ _ _ => Or.inl rfl)
  | mark =>
    obtain ⟨rfl, rfl | ⟨w, rfl | rfl⟩⟩ := stands
    · refine ⟨_, rfl, ?_⟩
      rintro m' k' ⟨⟩
      exact ⟨Or.inl rfl, meant⟩
    · exact settled rfl (fun r' ok right => Or.inr (pending_semi ok right))
    · exact settled rfl (fun r' ok right => Or.inr (pending_semi ok right))

/-- What the reader makes of an item of a canonical text. -/
def Followed (env : Env) (incl : List Char → Nat → Globals → Except Stop Globals) (front : Front) (inside : Bool)
    (ts : List Tok) (x : Except Stop (Core × Clause)) (r : Option (Except Stop (Mode × Core))) : Prop :=
  ∃ y, r = some y ∧ ∀ m' k', y = .ok (m', k') → Stands front inside m' ∧ Meant env incl (k', m'.clause) (m'.pending ++ ts) x

variable {inside : Bool} {m : Mode} {k : Core} {ts : List Tok} {x : Except Stop (Core × Clause)}

theorem Followed.ok {front : Front} {m' : Mode} {k' : Core} (stands : Stands front inside m')
    (meant : Meant env incl (k', m'.clause) (m'.pending ++ ts) x) :
    Followed env incl front inside ts x (some (.ok (m', k'))) := by
  refine ⟨_, rfl, ?_⟩
  rintro m'' k'' ⟨⟩
  exact ⟨stands, meant⟩

theorem word_stands {w : List Char} (stands : Stands .blank inside m)
    (meant : Meant env incl (k, m.clause) (m.pending ++ .word w :: ts) x) :
    Followed env incl .word true ts x (nextWord env m k w) := by
  have stored : ∀ b, (b = .fresh [] false ∨ ∃ s, b = .stage s ∧ s ≠ .skip ∧ s ≠ .opening ∧ s ≠ .ended) →
      put env b w k = some (.ok (.word b w, k)) → Meant env incl (k, b.clause) (.word w :: ts) x →
      Followed env incl .word true ts x (nextWord env (.at b) k w) := by
    intro b place kept meant
    rw [nextWord, kept]
    refine .ok ⟨rfl, ?_⟩ meant
    rcases place with rfl | ⟨s, rfl, other⟩
    · exact Or.inl ⟨w, rfl⟩
    · exact Or.inr (Or.inl ⟨s, w, rfl, other⟩)
  rcases stands with rfl | ⟨-, s, rfl⟩
  · have room : w.length < MAXLEN := meant.room
    exact stored _ (Or.inl rfl) (if_pos (by simpa using room)) meant
  · cases s with
    | skip => exact .ok ⟨rfl, Or.inr (Or.inr (Or.inl rfl))⟩ (Meant.rest (r := (k, .stage .skip)) meant rfl)
    | opening => exact .ok ⟨rfl, Or.inr (Or.inr (Or.inr rfl))⟩ (Meant.rest (r := (k, .stage .opening)) meant rfl)
    | ended => exact (Meant.not_wrong (r := (k, .stage .ended)) meant rfl).elim
    | first | second | name | subnet | mask | file =>
      have room : w.length < MAXLEN := meant.room
      refine stored (.stage _) (Or.inr ⟨_, rfl, (by decide), (by decide), (by decide)⟩) ?_ meant
      rw [put, if_neg (not_lost room), leftover_short room]
      all_goals exact fun same => by cases same

theorem quoted_stands {q : List Char} (stands : Stands .blank inside m)
    (meant : Meant env incl (k, m.clause) (m.pending ++ .quoted q :: ts) x) :
    Followed env incl .word true ts x (nextQuoted env m k q) := by
  have stored : ∀ s, s = .name ∨ s = .file → Meant env incl (k, .stage s) (.quoted q :: ts) x →
      Followed env incl .word true ts x
        (if quotedText q ≠ [] ∧ '\x00' ∉ q then some (.ok (.word (.stage s) (quotedText q), k)) else none) := by
    intro s named meant
    have room : '\x00' ∉ q ∧ (quotedWord q).length < MAXLEN := by
      rcases named with rfl | rfl <;> exact meant.room
    have filled : quotedText q ≠ [] := by
      intro empty
      refine @Meant.not_wrong _ _ (k, .stage s) _ k _ _ meant ?_
      rcases named with rfl | rfl <;> exact if_pos empty
    have same := @quoted_step env incl s named q filled k
    have roomWord : Room (.stage s) (.word (quotedText q)) := by
      rcases named with rfl | rfl <;> exact quotedText_length q
    rw [if_pos ⟨filled, room.1⟩]
    refine .ok ⟨rfl, Or.inr (Or.inl ⟨s, _, rfl, ?_⟩)⟩ ?_
    · rcases named with rfl | rfl <;> exact ⟨by decide, by decide, by decide⟩
    · cases meant with
      | step _ ok right rest => exact .step roomWord (same.symm.trans ok) right rest
      | stop _ error goes => exact .stop roomWord (same.symm.trans error) goes
  rcases stands with rfl | ⟨-, s, rfl⟩
  · exact (Meant.not_wrong (r := (k, .fresh)) meant rfl).elim
  · cases s with
    | skip => exact .ok ⟨rfl, Or.inr (Or.inr (Or.inl rfl))⟩ (Meant.rest (r := (k, .stage .skip)) meant rfl)
    | opening => exact .ok ⟨rfl, Or.inr (Or.inr (Or.inr rfl))⟩ (Meant.rest (r := (k, .stage .opening)) meant rfl)
    | name => exact stored .name (Or.inl rfl) meant
    | file => exact stored .file (Or.inr rfl) meant
    | ended => exact (Meant.not_wrong (r := (k, .stage .ended)) meant rfl).elim
    | first => exact (Meant.not_wrong (r := (k, .stage .first)) meant rfl).elim
    | second => exact (Meant.not_wrong (r := (k, .stage .second)) meant rfl).elim
    | subnet => exact (Meant.not_wrong (r := (k, .stage .subnet)) meant rfl).elim
    | mask => exact (Meant.not_wrong (r := (k, .stage .mask)) meant rfl).elim

theorem after_named {s : Stage} {w : List Char} {r : Core × Clause} (named : s = .name ∨ s = .subnet ∨ s = .mask)
    (room : w.length < MAXLEN) (ok : tokStep env incl (k, .stage s) (.word w) = .ok r) :
    r.2 = .stage .opening ∨ r.2 = .stage .mask ∨ r.2 = .fresh := by
  rw [tokStep_word room] at ok
  rcases named with rfl | rfl | rfl
  · obtain ⟨k', -, last⟩ := bind_ok ok
    obtain rfl := Except.ok.inj last
    exact Or.inl rfl
  · simp only [argument] at ok
    split_ifs at ok
    · obtain rfl := Except.ok.inj ok
      exact Or.inl rfl
    · obtain ⟨k', -, last⟩ := bind_ok ok
      obtain rfl := Except.ok.inj last
      exact Or.inr (Or.inr rfl)
  · simp only [argument] at ok
    split_ifs at ok
    · obtain ⟨recorded, -, last⟩ := bind_ok ok
      obtain rfl := Except.ok.inj last
      exact Or.inl rfl
    · obtain rfl := Except.ok.inj ok
      exact Or.inr (Or.inl rfl)
    · obtain rfl := Except.ok.inj ok
      exact Or.inl rfl

/-- A name, subnet or netmask in front of a semicolon is no statement. -/
theorem no_semi {s : Stage} {w : List Char} (named : s = .name ∨ s = .subnet ∨ s = .mask)
    (meant : Meant env incl (k, .stage s) (.word w :: .semi :: ts) x) : False := by
  cases meant with
  | stop _ _ goes =>
    rcases goes with same | ⟨t', ts', same, other⟩
    · rcases named with rfl | rfl | rfl <;> cases same
    · cases same
      exact other rfl
  | @step _ r' _ _ _ room ok _ rest =>
    have short : w.length < MAXLEN := by
      rcases named with rfl | rfl | rfl <;> exact room
    have later := after_named named short ok
    obtain ⟨k', c⟩ := r'
    rcases later with rfl | rfl | rfl
    · exact Meant.not_wrong rest rfl
    · exact Meant.not_wrong rest rfl
    · exact Meant.room rest

theorem semi_stands (stands : Stands .word inside m)
    (meant : Meant env incl (k, m.clause) (m.pending ++ .semi :: ts) x) :
    Followed env incl .mark false ts x (nextSemi env incl m k) := by
  obtain ⟨-, ⟨w, rfl⟩ | ⟨s, w, rfl, other⟩ | rfl | rfl⟩ := stands
  · -- A statement of one word.
    have dullWord : dull env w = true := by
      have rest := Meant.rest (r := (k, .fresh)) meant rfl
      have never := isInteresting_ne_second env.allAsShared w
      rw [announced_short meant.room] at rest
      rw [dull, announced_short meant.room]
      generalize isInterestingConfigClause env.allAsShared w = kind at rest never ⊢
      cases kind with
      | ITS_NOTHING_INTERESTING => rfl
      | ITS_A_RANGE_SECOND_IP => exact absurd rfl never
      | ITS_A_RANGE_FIRST_IP => exact (Meant.not_wrong (r := (k, .stage .first)) rest rfl).elim
      | ITS_A_SHAREDNET => exact (Meant.not_wrong (r := (k, .stage .name)) rest rfl).elim
      | ITS_AN_INCLUCE => exact (Meant.not_wrong (r := (k, .stage .file)) rest rfl).elim
      | ITS_A_SUBNET => exact (Meant.not_wrong (r := (k, .stage .subnet)) rest rfl).elim
      | ITS_A_NETMASK => exact (Meant.not_wrong (r := (k, .stage .mask)) rest rfl).elim
    have first := @dull_step env incl w dullWord k
    rw [nextSemi, if_pos dullWord]
    exact .ok ⟨rfl, Or.inl rfl⟩ (Meant.rest (r := (k, .stage .skip)) (Meant.rest (r := (k, .fresh)) meant first) rfl)
  · cases s with
    | skip => exact absurd rfl other.1
    | opening => exact absurd rfl other.2.1
    | ended => exact absurd rfl other.2.2
    | first => exact .ok ⟨rfl, Or.inr ⟨w, Or.inl rfl⟩⟩ meant
    | file => exact .ok ⟨rfl, Or.inr ⟨w, Or.inr rfl⟩⟩ meant
    | second =>
      have room : w.length < MAXLEN := meant.room
      have ended := Meant.rest meant (tokStep_word room k .second)
      have taken : nextSemi env incl (.word (.stage .second) w) k =
          settle (tokRun env incl (k, .stage .second) [.word w, .semi]) := rfl
      rw [taken, tokRun, run_cons, tokStep_word room]
      exact .ok ⟨rfl, Or.inl rfl⟩ (Meant.rest ended rfl)
    | name => exact (no_semi (Or.inl rfl) meant).elim
    | subnet => exact (no_semi (Or.inr (Or.inl rfl)) meant).elim
    | mask => exact (no_semi (Or.inr (Or.inr rfl)) meant).elim
  · exact .ok ⟨rfl, Or.inl rfl⟩ (Meant.rest (r := (k, .stage .skip)) meant rfl)
  · exact (Meant.not_wrong (r := (k, .stage .opening)) meant rfl).elim

theorem lbrace_stands (stands : Stands .blank inside m)
    (meant : Meant env incl (k, m.clause) (m.pending ++ .lbrace :: ts) x) :
    Followed env incl .mark false ts x (nextLbrace env m k) := by
  rcases stands with rfl | ⟨-, s, rfl⟩
  · rw [nextLbrace, if_pos (by decide)]
    exact .ok ⟨rfl, Or.inl rfl⟩ (Meant.rest (r := (k, .fresh)) meant rfl)
  · cases s with
    | skip => exact .ok ⟨rfl, Or.inl rfl⟩ (Meant.rest (r := (k, .stage .skip)) meant rfl)
    | opening => exact .ok ⟨rfl, Or.inl rfl⟩ (Meant.rest (r := (k, .stage .opening)) meant rfl)
    | ended => exact (Meant.not_wrong (r := (k, .stage .ended)) meant rfl).elim
    | first => exact (Meant.not_wrong (r := (k, .stage .first)) meant rfl).elim
    | second => exact (Meant.not_wrong (r := (k, .stage .second)) meant rfl).elim
    | name => exact (Meant.not_wrong (r := (k, .stage .name)) meant rfl).elim
    | subnet => exact (Meant.not_wrong (r := (k, .stage .subnet)) meant rfl).elim
    | mask => exact (Meant.not_wrong (r := (k, .stage .mask)) meant rfl).elim
    | file => exact (Meant.not_wrong (r := (k, .stage .file)) meant rfl).elim

theorem rbrace_stands (stands : Stands .blank inside m)
    (meant : Meant env incl (k, m.clause) (m.pending ++ .rbrace :: ts) x) :
    Followed env incl .mark false ts x (nextRbrace m k) := by
  rcases stands with rfl | ⟨-, s, rfl⟩
  · exact .ok ⟨rfl, Or.inl rfl⟩ (Meant.rest (r := (k, .fresh)) meant rfl)
  · exact (Meant.not_wrong (r := (k, .stage s)) meant (by cases s <;> rfl)).elim

/-- The reader follows a canonical text of statements. -/
theorem canonical_laid {items : List Item} : ∀ {front : Front} {inside : Bool} {m : Mode} {k : Core}
    {x : Except Stop (Core × Clause)}, Canonical front inside items → Stands front inside m →
    Meant env incl (k, m.clause) (m.pending ++ tokensOf items) x → Laid env incl m k items := by
  induction items with
  | nil =>
    intro front inside m k x canonical stands _
    obtain ⟨rfl, -⟩ := canonical
    rcases stands with rfl | ⟨-, s, rfl⟩ <;> rfl
  | cons i rest ih =>
    intro front inside m k x canonical stands meant
    have onward : ∀ {front' inside'}, Canonical front' inside' rest →
        Followed env incl front' inside' (tokensOf rest) x (next env incl m k i) → Laid env incl m k (i :: rest) := by
      rintro front' inside' canonical ⟨y, followed, stands⟩
      rw [laid_cons, followed]
      cases y with
      | error e => trivial
      | ok mk => exact ih canonical (stands mk.1 mk.2 rfl).1 (stands mk.1 mk.2 rfl).2
    cases i with
    | space c => exact onward canonical (commit_stands stands meant)
    | comment t =>
      obtain ⟨rfl, rfl, canonical⟩ := canonical
      have fresh : m = .at (.fresh [] false) := by
        rcases stands with rfl | ⟨no, -⟩
        · rfl
        · cases no
      subst fresh
      have safe : Harmless (Mode.at (.fresh [] false)).lex t :=
        ⟨fun _ => ⟨fun h => (by cases h.1), fun h => (by cases h.1)⟩, fun _ => Or.inr rfl⟩
      refine onward canonical ?_
      change Followed _ _ _ _ _ _ (if Harmless (Mode.at (.fresh [] false)).lex t then _ else none)
      rw [if_pos safe]
      exact @commit_stands env incl .blank false _ k _ x (Or.inl rfl) meant
    | tok t =>
      cases t with
      | word w =>
        obtain ⟨rfl, canonical⟩ := canonical
        exact onward canonical (word_stands stands meant)
      | quoted q =>
        obtain ⟨rfl, canonical⟩ := canonical
        exact onward canonical (quoted_stands stands meant)
      | semi =>
        obtain ⟨rfl, canonical⟩ := canonical
        exact onward canonical (semi_stands stands meant)
      | lbrace =>
        obtain ⟨rfl, canonical⟩ := canonical
        exact onward canonical (lbrace_stands stands meant)
      | rbrace =>
        obtain ⟨rfl, canonical⟩ := canonical
        exact onward canonical (rbrace_stands stands meant)

/-- A canonical file is read as its tokens, if they are statements. -/
theorem readFile_meant {items : List Item} (fine : ∀ i ∈ items, i.Fine) (canonical : Canonical .blank false items)
    {sharedP : Nat} {g : Globals} {x : Except Stop (Core × Clause)}
    (meant : Meant env incl (⟨g, sharedP, 0, 1000⟩, .fresh) (tokensOf items) x) :
    readFile env incl (textOf items) sharedP g = x.map (fun r => r.1.g) := by
  rw [readFile_tokens fine (canonical_laid canonical (Or.inl rfl) meant), meant.tokRun]

end

/-! ## Files -/

/-- The text of a configuration file in the canonical layout, and the tree of its
    statements, which are valid for a family of addresses. -/
structure Source (env : Env) (v : DhcpVersion) where
  items : List Item
  tree : Config
  fine : ∀ i ∈ items, i.Fine
  canonical : Canonical .blank false items
  tokens : tokensOf items = tree.tokens
  valid : tree.Valid env v

def Source.text {env : Env} {v : DhcpVersion} (s : Source env v) : List Char := textOf s.items

section
variable {env : Env} {v : DhcpVersion} {incl : List Char → Nat → Globals → Except Stop Globals}

/-- A canonical file gives the tables that its tokens mean. -/
theorem readFile_means {α : Type} {R : Core × Clause → α → Prop} {z : Except Stop α} {f : α → Globals} (s : Source env v)
    {owner : Nat} {g : Globals} (means : Means env incl R (⟨g, owner, 0, 1000⟩, .fresh) s.tree.tokens z)
    (same : ∀ r a, R r a → r.1.g = f a) : readFile env incl s.text owner g = z.map f := by
  obtain ⟨x, meant, related⟩ := means
  rw [← s.tokens] at meant
  rw [Source.text, readFile_meant s.fine s.canonical meant]
  exact Match.map_eq (related.mono same)

/-- At the start of a file that is included in a network nothing ends the network. -/
theorem start_marked {owner depth : Nat} (flat : owner ≠ 0 → depth ≤ 1000) : Marked owner 0 1000 depth :=
  fun inside => Or.inr ⟨rfl, by have := flat inside; omega⟩

/-- A canonical file has the flow of its tree. -/
theorem readFile_flow (s : Source env v) {owner : Nat} {g : Globals} (held : Held env incl v owner s.tree)
    (agrees : Agrees v g.ipVersion) (flat : owner ≠ 0 → s.tree.depth ≤ 1000) :
    readFile env incl s.text owner g = (s.tree.flow env v incl owner g).map Prod.snd := by
  refine readFile_means s (tokens_flow s.valid held agrees (start_marked flat)) ?_
  rintro r left ⟨bs', rfl, -⟩
  rfl

/-- A canonical file has the effect of its tree. -/
theorem readFile_effect (s : Source env v) {owner : Nat} {g : Globals}
    (proper : s.tree.Proper env (decide (owner ≠ 0)))
    (keeps : s.tree.Includes env (Keeps incl v) (decide (owner ≠ 0))) (agrees : Agrees v g.ipVersion) (flat : owner ≠ 0 → s.tree.depth ≤ 1000) :
    readFile env incl s.text owner g = s.tree.effect env v incl owner g ∧
      ∀ g', s.tree.effect env v incl owner g = .ok g' → Agrees v g'.ipVersion := by
  have means := tokens_effect s.valid proper keeps agrees (start_marked flat)
  constructor
  · have read := readFile_means (f := id) s means ?_
    · rwa [Except.map_id] at read
    · rintro r g' ⟨bs', rfl, -⟩
      rfl
  · intro g' made
    rw [made] at means
    obtain ⟨x, -, related⟩ := means
    obtain ⟨r, -, bs', -, -, agrees⟩ := related.of_ok
    exact agrees

end

/-! ## Every tree has a canonical text -/

/-- Tokens in the canonical layout, on one line. -/
def render : List Tok → List Item
  | [] => [.space '\n']
  | .semi :: ts => .tok .semi :: render ts
  | t :: ts => .space ' ' :: .tok t :: render ts

/-- Every semicolon stands behind a word or string, and neither of them at the end. -/
def Ended : Bool → List Tok → Prop
  | behind, [] => behind = false
  | behind, .semi :: ts => behind = true ∧ Ended false ts
  | _, .word _ :: ts | _, .quoted _ :: ts => Ended true ts
  | _, .lbrace :: ts | _, .rbrace :: ts => Ended false ts

theorem render_canonical {ts : List Tok} : ∀ {front : Front} {inside : Bool}, Ended inside ts →
    (inside = true → front = .word) → Canonical front inside (render ts) := by
  induction ts with
  | nil => exact fun ended _ => ⟨rfl, ended⟩
  | cons t ts ih =>
    intro front inside ended behind
    cases t with
    | semi => exact ⟨behind ended.1, ih ended.2 (fun no => by cases no)⟩
    | word w => exact ⟨rfl, ih ended (fun _ => rfl)⟩
    | quoted q => exact ⟨rfl, ih ended (fun _ => rfl)⟩
    | lbrace => exact ⟨rfl, ih ended (fun no => by cases no)⟩
    | rbrace => exact ⟨rfl, ih ended (fun no => by cases no)⟩

theorem render_tokens (ts : List Tok) : tokensOf (render ts) = ts := by
  induction ts with
  | nil => rfl
  | cons t ts ih => cases t <;> exact congrArg (List.cons _) ih

theorem render_fine {ts : List Tok} (fine : ∀ t ∈ ts, (Item.tok t).Fine) : ∀ i ∈ render ts, i.Fine := by
  induction ts with
  | nil =>
    intro i member
    obtain rfl := List.mem_singleton.mp member
    rfl
  | cons t ts ih =>
    have later := ih (fun u member => fine u (List.mem_cons_of_mem _ member))
    have head := fine t List.mem_cons_self
    have blank : (Item.space ' ').Fine := rfl
    intro i member
    cases t <;> simp only [render, List.mem_cons] at member <;> rcases member with rfl | member <;>
      first | assumption | exact later i member | (rcases member with rfl | member; exacts [head, later i member])

theorem ended_args {args : List Arg} {t : Tok} {ts : List Tok} (later : Ended false ts) (mark : t = .semi ∨ t = .lbrace) :
    Ended true (args.map Arg.tok ++ t :: ts) := by
  induction args with
  | nil =>
    rcases mark with rfl | rfl
    · exact ⟨rfl, later⟩
    · exact later
  | cons a args ih => cases a <;> exact ih

theorem tokens_ended {T : Config} : ∀ {t : List Tok}, Ended false t → Ended false (T.tokens ++ t) := by
  induction T with
  | done => exact fun later => later
  | other keyword args rest ih =>
    intro t later
    simp only [Config.tokens, List.cons_append, List.append_assoc]
    exact ended_args (ih later) (Or.inl rfl)
  | range keyword flag first second rest ih =>
    intro t later
    cases flag <;> cases second <;> exact ⟨rfl, ih later⟩
  | included keyword file rest ih =>
    intro t later
    cases file <;> exact ⟨rfl, ih later⟩
  | network keyword name body rest ihBody ihRest =>
    intro t later
    have inner : Ended false (body.tokens ++ .rbrace :: (rest.tokens ++ t)) := ihBody (ihRest later)
    simp only [Config.tokens, List.cons_append, List.append_assoc]
    cases name <;> exact inner
  | subnet keyword net mask body rest ihBody ihRest =>
    intro t later
    have inner : Ended false (body.tokens ++ .rbrace :: (rest.tokens ++ t)) := ihBody (ihRest later)
    simp only [Config.tokens, List.cons_append, List.append_assoc]
    cases mask <;> exact inner
  | block keyword args body rest ihBody ihRest =>
    intro t later
    have inner : Ended false (body.tokens ++ .rbrace :: (rest.tokens ++ t)) := ihBody (ihRest later)
    simp only [Config.tokens, List.cons_append, List.append_assoc]
    exact ended_args inner (Or.inr rfl)

/-- A file with a given tree. -/
def Source.ofTree {env : Env} {v : DhcpVersion} (T : Config) (fine : ∀ t ∈ T.tokens, (Item.tok t).Fine)
    (valid : T.Valid env v) : Source env v where
  items := render T.tokens
  tree := T
  fine := render_fine fine
  canonical := by
    have ended := @tokens_ended T [] rfl
    rw [List.append_nil] at ended
    exact render_canonical ended (fun no => by cases no)
  tokens := render_tokens T.tokens
  valid := valid

end DhcpdPools.ConfigCanonical
