import DhcpdPools.ConfigInclude

/-!
Sets of include files. Reading a file with its includes gives the tables that its
inlined text gives (`include_inlined`), if the blocks of a file that is read inside a
network do not reach the depth at which a new file expects the end of a network.
-/
namespace DhcpdPools.ConfigLibrary
open Machine ConfigReader ConfigTokens ConfigReading ConfigTree ConfigMeaning ConfigCanonical ConfigInclude

/-! ## Effects up to the files opened -/

/-- The tables, without the record of the files opened. -/
def forget (g : Globals) : Globals := { g with opened := [] }

/-- Equal tables of the family `v`. -/
def Like (v : DhcpVersion) (g g' : Globals) : Prop := forget g = forget g' ∧ Agrees v g.ipVersion

section
variable {env : Env} {v : DhcpVersion} {g g' : Globals}

theorem forget_eq (same : forget g = forget g') : ∃ opened, g' = { g with opened := opened } := by
  cases g
  cases g'
  cases same
  exact ⟨_, rfl⟩

theorem Like.right (like : Like v g g') : Agrees v g'.ipVersion := by
  obtain ⟨opened, rfl⟩ := forget_eq like.1
  exact like.2

theorem Like.addRange (like : Like v g g') (a b : Ipaddr) (owner : Nat) :
    Like v (addRange v a b owner g) (addRange v a b owner g') := by
  obtain ⟨opened, rfl⟩ := forget_eq like.1
  refine ⟨?_, Or.inr (addRange_version ..)⟩
  unfold ConfigTree.addRange Globals.newrange Globals.setRange
  by_cases full : g.RANGES < g.numRanges + 1 + 1
  · simp only [if_pos full]
    rfl
  · simp only [if_neg full]
    rfl

/-- Equal tables, with a last network that is no place holder. -/
def Grown (v : DhcpVersion) (g g' : Globals) : Prop := Like v g g' ∧ g.numSharedNetworks ≠ 0

theorem Like.addNetwork (like : Like v g g') (name : List Char) (netmask : Int) :
    Match (Grown v) (addNetwork name netmask g) (addNetwork name netmask g') := by
  obtain ⟨opened, rfl⟩ := forget_eq like.1
  unfold ConfigTree.addNetwork
  by_cases full : SHARED_NETWORKS < g.numSharedNetworks + 1 + 2
  · simp only [if_pos full]
    rfl
  · simp only [if_neg full]
    exact ⟨⟨rfl, like.2⟩, Nat.succ_ne_zero _⟩

theorem Grown.addNetmask (grown : Grown v g g') (mask : Ipaddr) :
    Match (Grown v) (addNetmask v mask g) (addNetmask v mask g') := by
  obtain ⟨like, positive⟩ := grown
  obtain ⟨opened, rfl⟩ := forget_eq like.1
  unfold ConfigTree.addNetmask recordNetmask
  cases netmaskLoop 33 mask.v4 32 with
  | error e => rfl
  | ok shifted => exact ⟨⟨rfl, Or.inr rfl⟩, positive⟩

theorem Like.addSubnet (like : Like v g g') (net : List Char) (mask : Option (List Char × List Char)) :
    Match (Grown v) (addSubnet env.inet v net mask g) (addSubnet env.inet v net mask g') := by
  cases mask with
  | none => exact like.addNetwork net (-1)
  | some m => exact (like.addNetwork net (-1)).bind (fun _ _ grown => grown.addNetmask _)

theorem Like.count (like : Like v g g') : g'.numSharedNetworks = g.numSharedNetworks := by
  obtain ⟨opened, rfl⟩ := forget_eq like.1
  rfl

end

section
variable {env : Env} {v : DhcpVersion} {incl incl' : List Char → Nat → Globals → Except Stop Globals}
  {tree : List Char → Config}

theorem append_effect (T U : Config) : ∀ (owner : Nat) (g : Globals), (append T U).effect env v incl owner g =
    (T.effect env v incl owner g >>= U.effect env v incl owner) := by
  induction T with
  | done => exact fun _ _ => rfl
  | other keyword args rest ih => exact ih
  | range keyword flag first second rest ih => exact fun owner g => ih owner _
  | included keyword file rest ih =>
    intro owner g
    simp only [append, Config.effect, bind_assoc]
    exact bind_congr (fun g => ih owner g)
  | network keyword name body rest _ ih =>
    intro owner g
    simp only [append, Config.effect, bind_assoc]
    exact bind_congr (fun _ => bind_congr (fun g => ih owner g))
  | subnet keyword net mask body rest _ ih =>
    intro owner g
    simp only [append, Config.effect]
    split_ifs
    · simp only [bind_assoc]
      exact bind_congr (fun _ => bind_congr (fun g => ih owner g))
    · simp only [bind_assoc]
      exact bind_congr (fun g => ih owner g)
  | block keyword args body rest _ ih =>
    intro owner g
    simp only [append, Config.effect, bind_assoc]
    exact bind_congr (fun g => ih owner g)

/-- Including the file does what its tree does. -/
def Does (env : Env) (v : DhcpVersion) (incl incl' : List Char → Nat → Globals → Except Stop Globals)
    (tree : List Char → Config) (inside : Bool) (file : Arg) : Prop :=
  ∀ owner g g', decide (owner ≠ 0) = inside → Like v g g' →
    Match (Like v) (incl file.value owner g) ((tree (raw file)).effect env v incl' owner g')

/-- The trees of the files have the effect of the include statements. -/
theorem splice_effect {T : Config} : ∀ {owner : Nat} {g g' : Globals},
    T.Includes env (Does env v incl incl' tree) (decide (owner ≠ 0)) → Like v g g' →
    Match (Like v) (T.effect env v incl owner g) ((splice tree T).effect env v incl' owner g') := by
  induction T with
  | done => exact fun _ like => like
  | other keyword args rest ih => exact fun does like => ih does like
  | range keyword flag first second rest ih => exact fun does like => ih does (like.addRange _ _ _)
  | included keyword file rest ih =>
    intro owner g g' does like
    rw [splice, append_effect]
    exact (does.1 owner g g' rfl like).bind (fun _ _ like => ih does.2 like)
  | network keyword name body rest ihBody ihRest =>
    intro owner g g' does like
    refine (like.addNetwork name.value 0).bind ?_
    rintro h h' ⟨like, positive⟩
    rw [like.count]
    exact (ihBody (by rw [decide_eq_true positive]; exact does.1) like).bind (fun _ _ like => ihRest does.2 like)
  | subnet keyword net mask body rest ihBody ihRest =>
    intro owner g g' does like
    rw [splice, Config.effect, Config.effect]
    by_cases network : env.allAsShared = true ∧ owner = 0
    · obtain ⟨shared, rfl⟩ := network
      rw [if_pos ⟨shared, rfl⟩, if_pos ⟨shared, rfl⟩]
      refine (like.addSubnet net mask).bind ?_
      rintro h h' ⟨like, positive⟩
      have inner := does.1
      rw [shared, Bool.or_true] at inner
      rw [like.count]
      exact (ihBody (by rwa [decide_eq_true positive]) like).bind (fun _ _ like => ihRest does.2 like)
    · rw [if_neg network, if_neg network]
      have inner := does.1
      rw [within_plain network] at inner
      exact (ihBody inner like).bind (fun _ _ like => ihRest does.2 like)
  | block keyword args body rest ihBody ihRest =>
    intro owner g g' does like
    exact (ihBody does.1 like).bind (fun _ _ like => ihRest does.2 like)

end

/-! ## Files that include each other -/

/-- A file name that the reader keeps as it is written. -/
def Clean : Arg → Prop
  | .word _ => True
  | .quoted q => '#' ∉ q ∧ ∀ c ∈ q.head?, isspace c = false

theorem clean_value {a : Arg} (clean : Clean a) : a.value = raw a := by
  cases a with
  | word w => rfl
  | quoted q =>
    obtain ⟨plain, front⟩ := clean
    have all : q.filter (fun c => c ≠ '#') = q := by
      refine List.filter_eq_self.mpr (fun c member => ?_)
      exact decide_eq_true (fun same => plain (same ▸ member))
    change (q.filter (fun c => c ≠ '#')).dropWhile isspace = q
    rw [all]
    cases q with
    | nil => rfl
    | cons c q => rw [List.dropWhile_cons, if_neg (by rw [front c rfl]; exact Bool.false_ne_true)]

/-- Every include statement names a file of the set, as it is written. -/
def Serves {env : Env} {v : DhcpVersion} (source : List Char → Option (Source env v)) (T : Config) : Prop :=
  ∀ a ∈ T.includes, Clean a ∧ source (raw a) ≠ none

/-- Readable include files, which include each other without a cycle. -/
structure Library (env : Env) (v : DhcpVersion) where
  source : List Char → Option (Source env v)
  rank : List Char → Nat
  readable : ∀ f s, source f = some s → env.files f = some s.text
  serves : ∀ f s, source f = some s → Serves source s.tree
  acyclic : ∀ f s, source f = some s → ∀ a ∈ s.tree.includes, rank (raw a) < rank f

namespace Library
section
variable {env : Env} {v : DhcpVersion} (lib : Library env v)

def tree (f : List Char) : Config := ((lib.source f).map Source.tree).getD .done

def items (f : List Char) : List Item := ((lib.source f).map Source.items).getD []

/-- The text of a file with its includes replaced, `n` levels deep. -/
def content : Nat → List Char → List Item
  | 0, _ => []
  | n + 1, f => ConfigInclude.inline env (content n) .fresh (lib.items f)

/-- Its tree. -/
def expansion : Nat → List Char → Config
  | 0, _ => .done
  | n + 1, f => splice (expansion n) (lib.tree f)

/-- A text with its includes replaced. -/
def inlined (n : Nat) (main : Source env v) : List Char := textOf (ConfigInclude.inline env (lib.content n) .fresh main.items)

/-- In a file that is read inside a network blocks are not nested deeper than a new file
    counts, and so on for the files that it includes. -/
def Shallow : Nat → Bool → List Char → Prop
  | 0, _, _ => True
  | n + 1, inside, f => (inside = true → (lib.tree f).depth ≤ 1000) ∧
    (lib.tree f).Includes env (fun inside a => Shallow n inside (raw a)) inside

variable {lib}

theorem items_fine (f : List Char) : ∀ i ∈ lib.items f, i.Fine := by
  unfold items
  cases lib.source f with
  | none => exact fun i member => by cases member
  | some s => exact s.fine

theorem tree_valid (f : List Char) : (lib.tree f).Valid env v := by
  unfold tree
  cases lib.source f with
  | none => trivial
  | some s => exact s.valid

theorem items_tokens (f : List Char) : tokensOf (lib.items f) = (lib.tree f).tokens := by
  unfold items tree
  cases lib.source f with
  | none => rfl
  | some s => exact s.tokens

theorem items_canonical (f : List Char) : Canonical .blank false (lib.items f) := by
  unfold items
  cases lib.source f with
  | none => exact ⟨rfl, rfl⟩
  | some s => exact s.canonical

theorem expansion_valid : ∀ (n : Nat) (f : List Char), (lib.expansion n f).Valid env v
  | 0, _ => trivial
  | n + 1, f => splice_valid (expansion_valid n) (tree_valid f)

theorem expansion_includes : ∀ (n : Nat) (f : List Char), (lib.expansion n f).includes = []
  | 0, _ => rfl
  | n + 1, _ => splice_includes (expansion_includes n)

theorem content_fine : ∀ (n : Nat) (f : List Char), ∀ i ∈ lib.content n f, i.Fine
  | 0, _ => fun _ member => by cases member
  | n + 1, f => inline_fine (content_fine n) (items_fine f)

theorem content_canonical : ∀ (n : Nat) (f : List Char), Canonical .blank false (lib.content n f)
  | 0, _ => ⟨rfl, rfl⟩
  | n + 1, f => inline_closed (content_canonical n) (items_canonical f)

/-- An inlined text has the tokens of its tree. -/
theorem inlined_tokens {content : List Char → List Item} {tree : List Char → Config}
    (contents : ∀ f, tokensOf (content f) = (tree f).tokens) {items : List Item} {T : Config} (valid : T.Valid env v)
    (tokens : tokensOf items = T.tokens) :
    tokensOf (ConfigInclude.inline env content .fresh items) = (splice tree T).tokens := by
  have spliced := @inline_splice env v tree _ contents T [] valid
  rw [List.append_nil, inlineTokens, List.append_nil] at spliced
  rw [inline_tokens, tokens, spliced]

theorem content_tokens : ∀ (n : Nat) (f : List Char), tokensOf (lib.content n f) = (lib.expansion n f).tokens
  | 0, _ => rfl
  | n + 1, f => inlined_tokens (content_tokens n) (tree_valid f) (items_tokens f)

/-- A file with its includes replaced. -/
def inlinedSource (lib : Library env v) (n : Nat) (main : Source env v) : Source env v where
  items := ConfigInclude.inline env (lib.content n) .fresh main.items
  tree := splice (lib.expansion n) main.tree
  fine := inline_fine (content_fine n) main.fine
  canonical := inline_closed (content_canonical n) main.canonical
  tokens := inlined_tokens (content_tokens n) main.valid main.tokens
  valid := splice_valid (expansion_valid n) main.valid

/-- Files are read like their trees. -/
def Reads (lib : Library env v) (n : Nat) : Prop :=
  ∀ {depth : Nat} {f : List Char} {owner : Nat} {g g' : Globals}, n ≤ depth → lib.source f ≠ none → lib.rank f < n →
    (lib.expansion n f).Proper env (decide (owner ≠ 0)) → lib.Shallow n (decide (owner ≠ 0)) f → Like v g g' →
    ∀ incl, Match (Like v) (parseConfig env depth f owner g) ((lib.expansion n f).effect env v incl owner g')

/-- A text is read like its tree with the files in place, if those are. -/
theorem source_reads {n depth : Nat} (files : lib.Reads n) (deep : n ≤ depth) (s : Source env v)
    (serves : Serves lib.source s.tree) (below : ∀ a ∈ s.tree.includes, lib.rank (raw a) < n) {owner : Nat}
    (proper : (splice (lib.expansion n) s.tree).Proper env (decide (owner ≠ 0)))
    (shallow : s.tree.Includes env (fun inside a => lib.Shallow n inside (raw a)) (decide (owner ≠ 0)))
    (flat : owner ≠ 0 → s.tree.depth ≤ 1000) {g g' : Globals} (like : Like v g g')
    (incl : List Char → Nat → Globals → Except Stop Globals) :
    Match (Like v) (readFile env (parseConfig env depth) s.text owner g)
      ((splice (lib.expansion n) s.tree).effect env v incl owner g') := by
  obtain ⟨properTree, properFiles⟩ := splice_proper proper
  have does : s.tree.Includes env (Does env v (parseConfig env depth) incl (lib.expansion n)) (decide (owner ≠ 0)) := by
    refine (properFiles.and shallow).mono ?_
    rintro inside a member ⟨proper, shallow⟩ inner h h' rfl like
    obtain ⟨clean, known⟩ := serves a member
    rw [clean_value clean]
    exact files deep known (below a member) proper shallow like incl
  have keeps : s.tree.Includes env (Keeps (parseConfig env depth) v) (decide (owner ≠ 0)) := by
    refine does.mono ?_
    intro inside a _ does inner h h' same agrees read
    have matched := does inner h h same ⟨rfl, agrees⟩
    rw [read] at matched
    cases effect : (lib.expansion n (raw a)).effect env v incl inner h with
    | error e =>
      rw [effect] at matched
      exact matched.elim
    | ok h'' =>
      rw [effect] at matched
      exact matched.2
  rw [(readFile_effect s properTree keeps like.2 flat).1]
  exact splice_effect does like

/-- Every file is read like its tree with the files in place. -/
theorem reads (lib : Library env v) (n : Nat) : lib.Reads n := by
  induction n with
  | zero => exact fun _ _ below => absurd below (Nat.not_lt_zero _)
  | succ n ih =>
    rintro depth f owner g g' deep known below proper shallow like incl
    obtain ⟨depth, rfl⟩ : ∃ d, depth = d + 1 := ⟨depth - 1, by omega⟩
    obtain ⟨s, source⟩ := Option.ne_none_iff_exists'.mp known
    have tree : lib.tree f = s.tree := by
      unfold Library.tree
      rw [source]
      rfl
    unfold expansion at proper ⊢
    unfold Shallow at shallow
    rw [tree] at proper shallow ⊢
    rw [parseConfig, lib.readable f s source]
    have opened : Like v { g with opened := g.opened ++ [f] } g' := ⟨like.1, like.2⟩
    refine source_reads ih (Nat.le_of_succ_le_succ deep) s (lib.serves f s source) ?_ proper shallow.2
      (fun inside => shallow.1 (decide_eq_true inside)) opened incl
    intro a member
    have := lib.acyclic f s source a member
    omega

end
end Library

/-! ## A file with blocks that are nested deep -/

/-- Blocks inside each other. -/
def nest : Nat → Config
  | 0 => .done
  | n + 1 => .block "group".toList [] (nest n) .done

/-- Nested blocks and a range behind them. -/
def nestedTree (n : Nat) : Config :=
  .block "group".toList [] (nest n) (.range "range".toList none "10.0.0.5".toList none .done)

/-- A network that includes a file. -/
def officeTree : Config :=
  .network "shared-network".toList (.word "office".toList)
    (.included "include".toList (.quoted "ranges.conf".toList) .done) .done

/-- The two files. -/
def nestedEnv (n : Nat) : Env := sampleEnv (fun f => some (textOf (render
  (if f = "ranges.conf".toList then nestedTree n else officeTree).tokens)))

theorem nest_fine (n : Nat) : ∀ t ∈ (nest n).tokens, (Item.tok t).Fine := by
  induction n with
  | zero => exact fun t member => by cases member
  | succ n ih =>
    intro t member
    simp only [nest, Config.tokens, List.map_nil, List.cons_append, List.nil_append, List.mem_cons, List.mem_append,
      List.not_mem_nil, or_false] at member
    rcases member with rfl | rfl | member | rfl
    · decide +kernel
    · trivial
    · exact ih t member
    · trivial

theorem nestedTree_fine (n : Nat) : ∀ t ∈ (nestedTree n).tokens, (Item.tok t).Fine := by
  intro t member
  simp only [nestedTree, Config.tokens, words, Option.toList, List.map_nil, List.cons_append, List.nil_append,
    List.mem_cons, List.mem_append, List.not_mem_nil, or_false] at member
  rcases member with rfl | rfl | member | rfl | rfl | rfl | rfl
  · decide +kernel
  · trivial
  · exact nest_fine n t member
  · trivial
  · decide +kernel
  · decide +kernel
  · trivial

section
variable {n : Nat}

theorem group_keyword : Keyword (nestedEnv n) .ITS_NOTHING_INTERESTING "group".toList :=
  ⟨(by decide +kernel : isInterestingConfigClause false "group".toList = _), by decide +kernel⟩

theorem range_keyword : Keyword (nestedEnv n) .ITS_A_RANGE_FIRST_IP "range".toList :=
  ⟨(by decide +kernel : isInterestingConfigClause false "range".toList = _), by decide +kernel⟩

theorem sample_address : IsAddress (nestedEnv n).inet .IPv4 "10.0.0.5".toList ∧ "10.0.0.5".toList.length < MAXLEN :=
  ⟨(by decide +kernel : (sampleInet.inetAton "10.0.0.5".toList).1 = true), by decide +kernel⟩

theorem nest_valid {m : Nat} : (nest m).Valid (nestedEnv n) .IPv4 := by
  induction m with
  | zero => trivial
  | succ m ih => exact ⟨group_keyword, ih, trivial⟩

theorem nestedTree_valid : (nestedTree n).Valid (nestedEnv n) .IPv4 := by
  refine ⟨group_keyword, nest_valid, range_keyword, ?_, sample_address, ?_, trivial⟩
  · rintro w ⟨⟩
  · rintro w ⟨⟩

theorem officeTree_valid : officeTree.Valid (nestedEnv n) .IPv4 :=
  ⟨⟨(by decide +kernel : isInterestingConfigClause false "shared-network".toList = _), by decide +kernel⟩,
    (by decide +kernel : "office".toList.length < MAXLEN),
    ⟨⟨(by decide +kernel : isInterestingConfigClause false "include".toList = _), by decide +kernel⟩,
      ⟨by decide +kernel, by decide +kernel, by decide +kernel⟩, trivial⟩, trivial⟩

theorem nest_includes {m : Nat} : (nest m).includes = [] := by
  induction m with
  | zero => rfl
  | succ m ih => exact List.append_eq_nil_iff.mpr ⟨ih, rfl⟩

theorem nestedTree_includes : (nestedTree n).includes = [] := List.append_eq_nil_iff.mpr ⟨nest_includes, rfl⟩

theorem nest_proper {env : Env} {m : Nat} : (nest m).Proper env true := by
  induction m with
  | zero => trivial
  | succ m ih => exact ⟨ih, trivial⟩

end

def nestedSource (n : Nat) : Source (nestedEnv n) .IPv4 := .ofTree (nestedTree n) (nestedTree_fine n) nestedTree_valid

def officeSource (n : Nat) : Source (nestedEnv n) .IPv4 := .ofTree officeTree (by decide +kernel) officeTree_valid

/-- The included file. -/
def nestedLibrary (n : Nat) : Library (nestedEnv n) .IPv4 where
  source f := if f = "ranges.conf".toList then some (nestedSource n) else none
  rank _ := 0
  readable f s source := by
    split_ifs at source with same
    cases source
    subst same
    rfl
  serves f s source := by
    split_ifs at source
    cases source
    intro a member
    rw [show (nestedSource n).tree.includes = [] from nestedTree_includes] at member
    cases member
  acyclic f s source := by
    split_ifs at source
    cases source
    intro a member
    rw [show (nestedSource n).tree.includes = [] from nestedTree_includes] at member
    cases member

theorem nested_source (n : Nat) : (nestedLibrary n).source "ranges.conf".toList = some (nestedSource n) := by
  unfold nestedLibrary
  simp only [if_true]

theorem nested_expansion (n : Nat) : (nestedLibrary n).expansion 1 "ranges.conf".toList = nestedTree n := by
  have tree : (nestedLibrary n).tree "ranges.conf".toList = nestedTree n := by
    rw [Library.tree, nested_source]
    rfl
  rw [Library.expansion, tree]
  exact splice_none nestedTree_includes

theorem office_text (n : Nat) : (nestedEnv n).files "dhcpd.conf".toList = some (officeSource n).text := by
  have other : "dhcpd.conf".toList ≠ "ranges.conf".toList := by decide +kernel
  unfold nestedEnv sampleEnv
  simp only [if_neg other]
  rfl

theorem office_serves (n : Nat) : Serves (nestedLibrary n).source (officeSource n).tree := by
  intro a member
  obtain rfl := List.mem_singleton.mp member
  have head : "ranges.conf".toList.head? = some 'r' := by decide +kernel
  refine ⟨⟨by decide +kernel, ?_⟩, ?_⟩
  · rw [head]
    rintro c ⟨⟩
    rfl
  · change (nestedLibrary n).source "ranges.conf".toList ≠ none
    rw [nested_source]
    exact Option.some_ne_none _

theorem office_below (n : Nat) : ∀ a ∈ (officeSource n).tree.includes, (nestedLibrary n).rank (raw a) < 1 :=
  fun _ _ => Nat.one_pos

theorem office_proper (n : Nat) : (splice ((nestedLibrary n).expansion 1) (officeSource n).tree).Proper (nestedEnv n) false := by
  refine ⟨rfl, append_proper.mpr ⟨?_, trivial⟩, trivial⟩
  change ((nestedLibrary n).expansion 1 "ranges.conf".toList).Proper _ _
  rw [nested_expansion]
  exact ⟨nest_proper, trivial⟩

/-! Behind the block at depth 1000 the reader takes the network for ended. -/

section
variable {n : Nat} {incl : List Char → Nat → Globals → Except Stop Globals}

theorem nest_means (m : Nat) : ∀ {g : Globals} {owner : Nat} {b : Int}, b + m = 1000 → Agrees .IPv4 g.ipVersion →
    Means (nestedEnv n) incl (fun r h => r = (⟨h, 0, b, 1000⟩, .fresh) ∧ Agrees .IPv4 h.ipVersion)
      (⟨g, owner, b, 1000⟩, .fresh) (nest (m + 1)).tokens (.ok g) := by
  induction m with
  | zero =>
    intro g owner b depth agrees
    obtain rfl : b = 1000 := by simpa using depth
    exact .keyword group_keyword (.step trivial rfl (fun same => by cases same) (.step trivial rfl
      (fun same => by cases same) (.done ⟨rfl, agrees⟩)))
  | succ m ih =>
    intro g owner b depth agrees
    have deeper : b + 1 + m = 1000 := by
      push_cast at depth
      omega
    refine .keyword group_keyword (.step trivial rfl (fun same => by cases same) ?_)
    refine Means.append (h := .ok) (ih deeper agrees) ?_
    rintro r' g' - ⟨rfl, agrees⟩
    refine .step trivial rfl (fun same => by cases same) (.done ⟨?_, agrees⟩)
    have further : (1000 : Int) ≠ b := by push_cast at depth; omega
    unfold Core.close
    simp only [Int.add_sub_cancel, if_neg further]

def sampleAddress : Ipaddr := address sampleInet .IPv4 "10.0.0.5".toList

theorem nested_read {m : Nat} (deep : m = 999) {g : Globals} (owner : Nat) (agrees : Agrees .IPv4 g.ipVersion) :
    readFile (nestedEnv (m + 1)) incl (nestedSource (m + 1)).text owner g =
      .ok (addRange .IPv4 sampleAddress sampleAddress 0 g) := by
  have means : Means (nestedEnv (m + 1)) incl (fun r h => r.1.g = h) (⟨g, owner, 0, 1000⟩, .fresh) (nestedTree (m + 1)).tokens
      (.ok (addRange .IPv4 sampleAddress sampleAddress 0 g)) := by
    refine .keyword group_keyword (.step trivial rfl (fun same => by cases same) ?_)
    have innermost : (0 : Int) + 1 + m = 1000 := by
      rw [deep]
      rfl
    refine Means.append (h := fun g => .ok (addRange .IPv4 sampleAddress sampleAddress 0 g))
      (nest_means m innermost agrees) ?_
    rintro r' g' - ⟨rfl, agrees⟩
    refine .step trivial rfl (fun same => by cases same) (.keyword range_keyword ?_)
    exact @Means.range _ _ _ _ _ _ _ _ _ _ _ none none _ (fun _ no => by cases no) sample_address
      (fun _ no => by cases no) agrees (.done rfl)
  exact readFile_means (f := id) (nestedSource (m + 1)) means (fun _ _ same => same)

theorem nest_effect {env : Env} (m : Nat) (owner : Nat) (g : Globals) : (nest m).effect env .IPv4 incl owner g = .ok g := by
  induction m with
  | zero => rfl
  | succ m ih =>
    rw [nest, Config.effect, ih]
    rfl

theorem office_added (opened : List (List Char)) : ∃ g, addNetwork "office".toList 0
    { emptyGlobals .IPv4 with opened := opened } = .ok g ∧ g.ipVersion = .IPv4 ∧ g.numRanges = 0 ∧ g.numSharedNetworks = 1 :=
  ⟨_, rfl, rfl, rfl, rfl⟩

theorem network_effect {env : Env} {body : Config} {g g1 : Globals} (added : addNetwork "office".toList 0 g = .ok g1) :
    (Config.network "shared-network".toList (.word "office".toList) body .done).effect env .IPv4 incl 0 g =
      body.effect env .IPv4 incl g1.numSharedNetworks g1 := by
  change (addNetwork "office".toList 0 g >>= _) = _
  rw [added]
  change (body.effect env .IPv4 incl g1.numSharedNetworks g1 >>= Except.ok) = _
  cases body.effect env .IPv4 incl g1.numSharedNetworks g1 <;> rfl

theorem addRange_owner {g : Globals} (first : g.numRanges = 0) (owner : Nat) :
    ((addRange .IPv4 sampleAddress sampleAddress owner g).ranges 0).sharedNet = some owner := by
  obtain ⟨-, table, -⟩ := addRange_fields (v := .IPv4) sampleAddress sampleAddress owner g
  rw [table, first, Function.update_self, entry, if_pos (Nat.le_refl _)]

/-- The include statement: the range is outside the networks. -/
theorem office_read {m : Nat} (deep : m = 999) : ∃ g, parseConfig (nestedEnv (m + 1)) 2 "dhcpd.conf".toList 0
    (emptyGlobals .IPv4) = .ok g ∧ (g.ranges 0).sharedNet = some 0 := by
  have file : (Arg.quoted "ranges.conf".toList).value = "ranges.conf".toList := by decide +kernel
  have text : (nestedEnv (m + 1)).files "ranges.conf".toList = some (nestedSource (m + 1)).text :=
    (nestedLibrary (m + 1)).readable _ _ (nested_source (m + 1))
  have read : ∀ owner g, Agrees .IPv4 g.ipVersion → parseConfig (nestedEnv (m + 1)) 1 "ranges.conf".toList owner g =
      .ok (addRange .IPv4 sampleAddress sampleAddress 0 { g with opened := g.opened ++ ["ranges.conf".toList] }) := by
    intro owner g agrees
    rw [parseConfig, text]
    exact nested_read deep owner agrees
  have keeps : (officeSource (m + 1)).tree.Includes (nestedEnv (m + 1))
      (Keeps (parseConfig (nestedEnv (m + 1)) 1) .IPv4) false := by
    refine ⟨⟨?_, trivial⟩, trivial⟩
    intro owner g g' _ agrees made
    rw [file, read owner g agrees] at made
    cases made
    exact Or.inr (addRange_version ..)
  obtain ⟨g1, added, version, first, count⟩ := office_added ["dhcpd.conf".toList]
  have effect := (@readFile_effect _ _ _ (officeSource (m + 1)) 0
    { emptyGlobals .IPv4 with opened := ["dhcpd.conf".toList] } ⟨rfl, trivial, trivial⟩ keeps (Or.inr rfl)
    (fun no => absurd rfl no)).1
  refine ⟨addRange .IPv4 sampleAddress sampleAddress 0 { g1 with opened := g1.opened ++ ["ranges.conf".toList] }, ?_,
    addRange_owner (g := { g1 with opened := g1.opened ++ ["ranges.conf".toList] }) first 0⟩
  rw [parseConfig, office_text]
  refine effect.trans ((network_effect added).trans ?_)
  rw [Config.effect, file, read g1.numSharedNetworks g1 (Or.inr version)]
  rfl

/-- The inlined text: the range is in the network. -/
theorem office_inlined (n : Nat) (incl : List Char → Nat → Globals → Except Stop Globals) :
    ∃ g, readFile (nestedEnv n) incl ((nestedLibrary n).inlined 1 (officeSource n)) 0 (emptyGlobals .IPv4) = .ok g ∧
      (g.ranges 0).sharedNet = some 1 := by
  obtain ⟨g1, added, version, first, count⟩ := office_added []
  have effect := (@readFile_effect _ _ incl ((nestedLibrary n).inlinedSource 1 (officeSource n)) 0
    (emptyGlobals .IPv4) (office_proper n) (includes_none (splice_includes ((nestedLibrary n).expansion_includes 1)))
    (Or.inr rfl) (fun no => absurd rfl no)).1
  refine ⟨addRange .IPv4 sampleAddress sampleAddress g1.numSharedNetworks g1, ?_, ?_⟩
  · refine effect.trans ((network_effect added).trans ?_)
    rw [splice, append_effect]
    change ((nestedLibrary n).expansion 1 "ranges.conf".toList).effect _ _ _ _ _ >>= _ = _
    rw [nested_expansion, nestedTree, Config.effect, nest_effect]
    rfl
  · rw [addRange_owner first, count]

end

/-- An include statement is the text of its file. -/
theorem include_inlined {env : Env} {v : DhcpVersion} (lib : Library env v) (main : Source env v) {file : List Char}
    {n depth : Nat} {g : Globals} (text : env.files file = some main.text) (serves : Serves lib.source main.tree)
    (below : ∀ a ∈ main.tree.includes, lib.rank (raw a) < n) (deep : n ≤ depth)
    (proper : (splice (lib.expansion n) main.tree).Proper env false)
    (shallow : main.tree.Includes env (fun inside a => lib.Shallow n inside (raw a)) false)
    (agrees : Agrees v g.ipVersion) (incl : List Char → Nat → Globals → Except Stop Globals) :
    (parseConfig env (depth + 1) file 0 g).map forget = (readFile env incl (lib.inlined n main) 0 g).map forget := by
  have outside : ∀ {P : Prop}, 0 ≠ 0 → P := fun no => absurd rfl no
  have reads := @Library.source_reads _ _ _ n depth (lib.reads n) deep main serves below 0 proper shallow outside
    { g with opened := g.opened ++ [file] } g ⟨rfl, agrees⟩ incl
  have inlined := @readFile_effect _ _ incl (lib.inlinedSource n main) 0 g proper
    (includes_none (splice_includes (lib.expansion_includes n))) agrees outside
  rw [parseConfig, text]
  exact (reads.mono (fun _ _ like => like.1)).map_eq.trans (congrArg (Except.map forget) inlined.1).symm

theorem include_inlined_sample : (parseConfig (nestedEnv 0) 2 "dhcpd.conf".toList 0 (emptyGlobals .IPv4)).map forget =
    (readFile (nestedEnv 0) (fun _ _ _ => .error .tooDeep) ((nestedLibrary 0).inlined 1 (officeSource 0)) 0
      (emptyGlobals .IPv4)).map forget := by
  refine include_inlined (nestedLibrary 0) (officeSource 0) (office_text 0) (office_serves 0) (office_below 0)
    (Nat.le_refl 1) (office_proper 0) ⟨⟨?_, trivial⟩, trivial⟩ (Or.inr rfl) _
  refine ⟨fun _ => ?_, ?_⟩
  · decide +kernel
  · exact includes_none nestedTree_includes

/-- A range behind blocks that are nested too deep loses the network of its include statement. -/
theorem deep_include_loses_network : ¬ ∀ (env : Env) (v : DhcpVersion) (lib : Library env v) (main : Source env v)
    (file : List Char) (n depth : Nat) (g : Globals), env.files file = some main.text → Serves lib.source main.tree →
    (∀ a ∈ main.tree.includes, lib.rank (raw a) < n) → n ≤ depth →
    (splice (lib.expansion n) main.tree).Proper env false → Agrees v g.ipVersion →
    ∀ incl, (parseConfig env (depth + 1) file 0 g).map forget = (readFile env incl (lib.inlined n main) 0 g).map forget := by
  intro claim
  obtain ⟨m, deep⟩ : ∃ m, m = 999 := ⟨_, rfl⟩
  have same := claim _ _ (nestedLibrary (m + 1)) (officeSource (m + 1)) _ 1 1 (emptyGlobals .IPv4) (office_text _)
    (office_serves _) (office_below _) (Nat.le_refl 1) (office_proper _) (Or.inr rfl) (fun _ _ _ => .error .tooDeep)
  obtain ⟨g, read, outside⟩ := office_read deep
  obtain ⟨g', inlined, within⟩ := office_inlined (m + 1) (fun _ _ _ => .error .tooDeep)
  rw [read, inlined] at same
  obtain ⟨opened, rfl⟩ := forget_eq (Except.ok.inj same)
  change (g.ranges 0).sharedNet = some 1 at within
  rw [outside] at within
  cases within

end DhcpdPools.ConfigLibrary
