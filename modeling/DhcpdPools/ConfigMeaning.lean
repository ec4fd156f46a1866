import DhcpdPools.ConfigTree

/-!
What the tokens of statements mean, with the counting of braces. The tokens of a valid
tree mean its flow (`tokens_flow`), and its effect where networks are not nested
(`tokens_effect`), so the counting finds the end of every network.
-/
namespace DhcpdPools.ConfigMeaning
open Machine ConfigReader ConfigTokens ConfigTree

/-- The word buffer has room for the token, where it goes there; no statement is empty. -/
def Room : Clause → Tok → Prop
  | .stage .skip, _ | .stage .opening, _ => True
  | .fresh, .semi => False
  | _, .word w => w.length < MAXLEN
  | _, .quoted q => '\x00' ∉ q ∧ (quotedWord q).length < MAXLEN
  | _, _ => True

section
variable {env : Env} {incl : List Char → Nat → Globals → Except Stop Globals}

/-- The tokens are statements, with room for every word, and mean a result. Where a word
    stops the program, more than the semicolon of the statement follows, or a file was
    to be included. -/
inductive Meant (env : Env) (incl : List Char → Nat → Globals → Except Stop Globals) :
    Core × Clause → List Tok → Except Stop (Core × Clause) → Prop
  | done (r : Core × Clause) : Meant env incl r [] (.ok r)
  | step {r r' : Core × Clause} {t : Tok} {ts : List Tok} {x : Except Stop (Core × Clause)} (room : Room r.2 t)
      (ok : tokStep env incl r t = .ok r') (right : r'.2 ≠ .wrong) (rest : Meant env incl r' ts x) :
      Meant env incl r (t :: ts) x
  | stop {r : Core × Clause} {t : Tok} {ts : List Tok} {e : Stop} (room : Room r.2 t)
      (error : tokStep env incl r t = .error e)
      (goes : r.2 = .stage .file ∨ ∃ t' ts', ts = t' :: ts' ∧ t' ≠ .semi) : Meant env incl r (t :: ts) (.error e)

theorem Meant.append_ok {r r' : Core × Clause} {ts us : List Tok} {x : Except Stop (Core × Clause)}
    (first : Meant env incl r ts (.ok r')) (rest : Meant env incl r' us x) : Meant env incl r (ts ++ us) x := by
  generalize result : (Except.ok r' : Except Stop (Core × Clause)) = y at first
  induction first with
  | done r =>
    cases result
    exact rest
  | step room ok right _ ih => exact .step room ok right (ih result)
  | stop => cases result

theorem Meant.append_error {r : Core × Clause} {ts us : List Tok} {e : Stop} (first : Meant env incl r ts (.error e)) :
    Meant env incl r (ts ++ us) (.error e) := by
  generalize result : (Except.error e : Except Stop (Core × Clause)) = y at first ⊢
  induction first with
  | done r => cases result
  | step room ok right _ ih => exact .step room ok right (ih result)
  | stop room error goes =>
    refine .stop room error (goes.imp_right ?_)
    rintro ⟨t', ts', rfl, other⟩
    exact ⟨t', ts' ++ us, rfl, other⟩

/-- What tokens mean is what their run gives. -/
theorem Meant.tokRun {r : Core × Clause} {ts : List Tok} {x : Except Stop (Core × Clause)} (meant : Meant env incl r ts x) :
    tokRun env incl r ts = x := by
  induction meant with
  | done r => rfl
  | step _ ok _ _ ih => rw [ConfigTokens.tokRun, run_ok _ ok, ← ConfigTokens.tokRun, ih]
  | stop _ error _ =>
    rw [ConfigTokens.tokRun, run_cons, error]
    rfl

/-- Tokens in front are run, and the meaning goes on behind them. -/
theorem Meant.split {ps ts : List Tok} {x : Except Stop (Core × Clause)} : ∀ {r : Core × Clause},
    r.2 ≠ .wrong → Meant env incl r (ps ++ ts) x →
      (∃ r', ConfigTokens.tokRun env incl r ps = .ok r' ∧ r'.2 ≠ .wrong ∧ Meant env incl r' ts x) ∨
        ∃ e, ConfigTokens.tokRun env incl r ps = .error e := by
  induction ps with
  | nil =>
    intro r right meant
    exact Or.inl ⟨r, rfl, right, meant⟩
  | cons t ps ih =>
    intro r _ meant
    rw [ConfigTokens.tokRun, run_cons]
    cases meant with
    | step _ ok right rest =>
      rw [ok]
      exact ih right rest
    | stop _ error _ =>
      rw [error]
      exact Or.inr ⟨_, rfl⟩

/-- The token has no meaning where it stands. -/
theorem Meant.not_wrong {r : Core × Clause} {t : Tok} {k' : Core} {ts : List Tok} {x : Except Stop (Core × Clause)} (meant : Meant env incl r (t :: ts) x)
    (wrong : tokStep env incl r t = .ok (k', .wrong)) : False := by
  cases meant with
  | step _ ok right _ =>
    rw [wrong] at ok
    cases ok
    exact right rfl
  | stop _ error _ =>
    rw [wrong] at error
    cases error

theorem Meant.rest {r r' : Core × Clause} {t : Tok} {ts : List Tok} {x : Except Stop (Core × Clause)} (meant : Meant env incl r (t :: ts) x)
    (same : tokStep env incl r t = .ok r') : Meant env incl r' ts x := by
  cases meant with
  | step _ ok _ rest =>
    rw [same] at ok
    cases ok
    exact rest
  | stop _ error _ =>
    rw [same] at error
    cases error

theorem Meant.room {r : Core × Clause} {t : Tok} {ts : List Tok} {x : Except Stop (Core × Clause)} (meant : Meant env incl r (t :: ts) x) : Room r.2 t := by
  cases meant with
  | step room _ _ _ => exact room
  | stop room _ _ => exact room

section
variable {α β : Type} {R : Core × Clause → α → Prop} {R' : Core × Clause → β → Prop} {r r' : Core × Clause} {t : Tok}
  {ts us : List Tok} {z : Except Stop α}

/-- The tokens mean a result, up to a relation. -/
def Means (env : Env) (incl : List Char → Nat → Globals → Except Stop Globals) (R : Core × Clause → α → Prop)
    (r : Core × Clause) (ts : List Tok) (z : Except Stop α) : Prop :=
  ∃ x, Meant env incl r ts x ∧ Match R x z

theorem Means.done {a : α} (related : R r a) : Means env incl R r [] (.ok a) := ⟨_, .done r, related⟩

theorem Means.step (room : Room r.2 t) (ok : tokStep env incl r t = .ok r') (right : r'.2 ≠ .wrong)
    (rest : Means env incl R r' ts z) : Means env incl R r (t :: ts) z := by
  obtain ⟨x, meant, related⟩ := rest
  exact ⟨x, .step room ok right meant, related⟩

theorem Means.stop {e : Stop} (room : Room r.2 t) (error : tokStep env incl r t = .error e)
    (goes : r.2 = .stage .file ∨ ∃ t' ts', ts = t' :: ts' ∧ t' ≠ .semi) :
    Means env incl R r (t :: ts) (.error e) :=
  ⟨_, .stop room error goes, rfl⟩

theorem Means.append {h : α → Except Stop β} (first : Means env incl R r ts z)
    (rest : ∀ r' a, z = .ok a → R r' a → Means env incl R' r' us (h a)) : Means env incl R' r (ts ++ us) (z >>= h) := by
  obtain ⟨x, meant, related⟩ := first
  cases x with
  | error e =>
    cases z with
    | error e' =>
      cases (show e = e' from related)
      exact ⟨_, meant.append_error, rfl⟩
    | ok a => exact related.elim
  | ok r' =>
    cases z with
    | error e' => exact related.elim
    | ok a =>
      obtain ⟨x, later, related⟩ := rest r' a rfl related
      exact ⟨x, meant.append_ok later, related⟩

theorem Means.mono {S : Core × Clause → α → Prop} (weaker : ∀ r a, R r a → S r a) (means : Means env incl R r ts z) :
    Means env incl S r ts z := by
  obtain ⟨x, meant, related⟩ := means
  exact ⟨x, meant, related.mono weaker⟩

/-- A relation to a part of the result. -/
theorem Means.of_map {f : α → β} (means : Means env incl R' r ts (z.map f)) :
    Means env incl (fun r a => R' r (f a)) r ts z := by
  obtain ⟨x, meant, related⟩ := means
  refine ⟨x, meant, ?_⟩
  cases x <;> cases z <;> exact related

/-- Arguments without meaning. -/
theorem Means.skip {k : Core} {s : Stage} (ignored : s = .skip ∨ s = .opening) (args : List Arg)
    (rest : Means env incl R (k, .stage s) ts z) : Means env incl R (k, .stage s) (args.map Arg.tok ++ ts) z := by
  induction args with
  | nil => exact rest
  | cons a args ih =>
    rcases ignored with rfl | rfl <;> cases a <;> exact .step trivial rfl (fun same => by cases same) ih

/-- A token with an effect on the tables. -/
theorem Means.effect {y : Except Stop Globals} {f : Globals → Core × Clause} {h : Globals → Except Stop α}
    (room : Room r.2 t) (made : tokStep env incl r t = y.map f)
    (goes : r.2 = .stage .file ∨ ∃ t' ts', ts = t' :: ts' ∧ t' ≠ .semi)
    (rest : ∀ g, y = .ok g → (f g).2 ≠ .wrong ∧ Means env incl R (f g) ts (h g)) :
    Means env incl R r (t :: ts) (y >>= h) := by
  cases y with
  | error e => exact .stop room made goes
  | ok g => exact .step room made (rest g rfl).1 (rest g rfl).2

/-- A word that goes with its statement. -/
theorem Means.keyword {k : Core} {kind : IscConfParser} {w : List Char} (keyword : Keyword env kind w)
    (rest : Means env incl R (k, .stage (stageOf kind)) ts z) : Means env incl R (k, .fresh) (.word w :: ts) z := by
  obtain ⟨rfl, room⟩ := keyword
  exact .step room rfl (fun same => by cases same) (by rwa [← announced_short room] at rest)

theorem secondAddress_numRanges (g : Globals) (version : DhcpVersion) (addr : Ipaddr) :
    (g.secondAddress version false addr).numRanges = g.numRanges := by
  change (Globals.reorderLastFirst _ _).numRanges = _
  unfold Globals.reorderLastFirst
  split_ifs <;> rfl

/-- A range statement behind its keyword. -/
theorem Means.range {v : DhcpVersion} {g : Globals} {owner : Nat} {b bs : Int} {flag second : Option (List Char)}
    {first : List Char} (flags : ∀ w ∈ flag, NoAddress env.inet w ∧ w.length < MAXLEN)
    (one : IsAddress env.inet v first ∧ first.length < MAXLEN)
    (two : ∀ w ∈ second, IsAddress env.inet v w ∧ w.length < MAXLEN) (agrees : Agrees v g.ipVersion)
    (rest : Means env incl R (⟨addRange v (address env.inet v first) (address env.inet v (second.getD first)) owner g,
      owner, b, bs⟩, .fresh) ts z) :
    Means env incl R (⟨g, owner, b, bs⟩, .stage .first) (words flag ++ .word first :: words second ++ .semi :: ts) z := by
  have parsed := parse_address one.1 agrees noAddr
  have firstStep : tokStep env incl (⟨g, owner, b, bs⟩, .stage .first) (.word first) =
      .ok (⟨g.firstAddress v (address env.inet v first), owner, b, bs⟩, .stage .second) := by
    rw [tokStep_word one.2]
    simp only [argument, parsed, if_true]
  have behind : Means env incl R (⟨g, owner, b, bs⟩, .stage .first) (.word first :: (words second ++ .semi :: ts)) z := by
    refine .step one.2 firstStep (fun same => by cases same) ?_
    cases second with
    | none =>
      refine .step trivial rfl (fun same => by cases same) ?_
      have made := single_range (copy_address one.1) g owner
      change Means env incl R (⟨_, owner, b, bs⟩, .fresh) ts z
      exact (congrArg (fun g => Means env incl R (⟨g, owner, b, bs⟩, .fresh) ts z) made).mpr rest
    | some w =>
      obtain ⟨valid, room⟩ := two w rfl
      have parsed := @parse_address env.inet v v w valid (Or.inr rfl) noAddr
      have made := double_range (copy_address one.1) (copy_address valid) g owner
      have step : tokStep env incl (⟨g.firstAddress v (address env.inet v first), owner, b, bs⟩, .stage .second)
          (.word w) = .ok (⟨addRange v (address env.inet v first) (address env.inet v w) owner g, owner, b, bs⟩,
            .stage .ended) := by
        rw [tokStep_word room]
        simp only [argument]
        have version : (g.firstAddress v (address env.inet v first)).ipVersion = v := rfl
        rw [version, parsed, secondAddress_numRanges]
        exact congrArg (fun g => Except.ok ((⟨g, owner, b, bs⟩ : Core), Clause.stage .ended)) made
      exact .step room step (fun same => by cases same) (.step trivial rfl (fun same => by cases same) rest)
  cases flag with
  | none => exact behind
  | some w =>
    obtain ⟨no, room⟩ := flags w rfl
    have flagStep : tokStep env incl (⟨g, owner, b, bs⟩, .stage .first) (.word w) =
        .ok (⟨g, owner, b, bs⟩, .stage .first) := by
      rw [tokStep_word room]
      simp only [argument, parse_flag no, Bool.false_eq_true, if_false]
    exact .step room flagStep (fun same => by cases same) behind

/-! ## Blocks -/

theorem argument_step {k : Core} {s : Stage} {a : Arg} (named : s = .name ∨ s = .file) (filled : a.Filled) :
    tokStep env incl (k, .stage s) a.tok = argument env incl k a.value s ∧ Room (.stage s) a.tok := by
  cases a with
  | word w => rcases named with rfl | rfl <;> exact ⟨tokStep_word filled k _, filled⟩
  | quoted q =>
    obtain ⟨some, room⟩ := filled
    rw [← quotedText_short room.2] at some
    rcases named with rfl | rfl <;>
      exact ⟨(if_neg some).trans (congrArg (argument env incl k · _) (quotedText_short room.2)), room⟩

theorem recordNetwork_eq (k : Core) (name : List Char) (netmask : Int) : recordNetwork k name netmask =
    (addNetwork name netmask k.g).map
      (fun g => { k with g := g, sharedP := g.numSharedNetworks, bracesShared := k.braces }) := by
  by_cases full : SHARED_NETWORKS < k.g.numSharedNetworks + 1 + 2
  · rw [addNetwork, if_pos full]
    exact if_pos full
  · rw [addNetwork, if_neg full]
    exact if_neg full

/-- The state behind a tree: the current network is the one in front or none, and only
    inside a network the marker of its end has to be kept. -/
def Leaves (v : DhcpVersion) (owner : Nat) (b bs : Int) (r : Core × Clause) (left : Nat × Globals) : Prop :=
  ∃ bs', r = (⟨left.2, left.1, b, bs'⟩, .fresh) ∧ (left.1 ≠ 0 → left.1 = owner ∧ bs' = bs) ∧ Agrees v left.2.ipVersion

/-- Inside a network no brace of the tree ends it: its own brace is further out, or the
    marker is the one at the start of a file, which is out of reach. -/
def Marked (owner : Nat) (b bs : Int) (depth : Nat) : Prop := owner ≠ 0 → bs < b ∨ bs = 1000 ∧ b + depth ≤ 1000

theorem close_block {owner owner' : Nat} {b bs bs' : Int} {depth : Nat} (marked : Marked owner b bs (depth + 1))
    (kept : owner' ≠ 0 → owner' = owner ∧ bs' = bs) (g : Globals) :
    ∃ bs'', (⟨g, owner', b + 1, bs'⟩ : Core).close = ⟨g, owner', b, bs''⟩ ∧ (owner' ≠ 0 → owner' = owner ∧ bs'' = bs) := by
  unfold Core.close
  simp only [Int.add_sub_cancel]
  by_cases ends : bs' = b
  · rw [if_pos ends]
    by_cases outside : owner' = 0
    · subst outside
      exact ⟨1000, rfl, fun no => absurd rfl no⟩
    · obtain ⟨rfl, same⟩ := kept outside
      rcases marked outside with further | ⟨start, near⟩ <;> omega
  · rw [if_neg ends]
    exact ⟨bs', rfl, kept⟩

theorem close_network {n owner : Nat} {b bs : Int} (kept : owner ≠ 0 → owner = n ∧ bs = b) (g : Globals) :
    ∃ bs', (⟨g, owner, b + 1, bs⟩ : Core).close = ⟨g, 0, b, bs'⟩ := by
  unfold Core.close
  simp only [Int.add_sub_cancel]
  by_cases ends : bs = b
  · rw [if_pos ends]
    exact ⟨1000, rfl⟩
  · rw [if_neg ends]
    obtain rfl : owner = 0 := by
      by_contra inside
      exact ends (kept inside).2
    exact ⟨bs, rfl⟩

/-- A body in braces. -/
theorem Means.body {v : DhcpVersion} {body : Config} {g : Globals} {n : Nat} {b bs : Int} {z : Except Stop (Nat × Globals)}
    {h : Nat × Globals → Except Stop α}
    (inside : Means env incl (Leaves v n (b + 1) bs) (⟨g, n, b + 1, bs⟩, .fresh) body.tokens z)
    (rest : ∀ left bs', z = .ok left → (left.1 ≠ 0 → left.1 = n ∧ bs' = bs) → Agrees v left.2.ipVersion →
      Means env incl R ((⟨left.2, left.1, b + 1, bs'⟩ : Core).close, .fresh) ts (h left)) :
    Means env incl R (⟨g, n, b + 1, bs⟩, .fresh) (body.tokens ++ .rbrace :: ts) (z >>= h) := by
  refine inside.append ?_
  rintro r' left flows ⟨bs', rfl, kept, agrees⟩
  exact .step trivial rfl (fun same => by cases same) (rest left bs' flows kept agrees)

/-- The body of a block that is no network. -/
theorem Means.plain {v : DhcpVersion} {body : Config} {rest : Config} {g : Globals} {owner : Nat} {b bs : Int}
    {z : Except Stop (Nat × Globals)} {h : Nat × Globals → Except Stop (Nat × Globals)}
    (marked : Marked owner b bs (max (body.depth + 1) rest.depth))
    (inside : Marked owner (b + 1) bs body.depth →
      Means env incl (Leaves v owner (b + 1) bs) (⟨g, owner, b + 1, bs⟩, .fresh) body.tokens z)
    (outside : ∀ {left bs}, z = .ok left → Agrees v left.2.ipVersion → Marked left.1 b bs rest.depth →
      Means env incl (Leaves v left.1 b bs) (⟨left.2, left.1, b, bs⟩, .fresh) rest.tokens (h left)) :
    Means env incl (Leaves v owner b bs) (⟨g, owner, b + 1, bs⟩, .fresh) (body.tokens ++ .rbrace :: rest.tokens)
      (z >>= h) := by
  have deeper : Marked owner (b + 1) bs body.depth := by
    intro inside
    have := marked inside
    omega
  have closes : Marked owner b bs (body.depth + 1) := by
    intro inside
    have := marked inside
    omega
  refine (inside deeper).body ?_
  intro left bs' flows kept agrees
  obtain ⟨bs'', closed, kept⟩ := close_block closes kept left.2
  rw [closed]
  have later : Marked left.1 b bs'' rest.depth := by
    intro inside
    obtain ⟨same, marker⟩ := kept inside
    have := marked (same ▸ inside)
    omega
  refine (outside flows agrees later).mono ?_
  rintro r left' ⟨bs3, rfl, kept', agrees⟩
  refine ⟨bs3, rfl, fun inside => ?_, agrees⟩
  obtain ⟨same', marker'⟩ := kept' inside
  obtain ⟨same, marker⟩ := kept (same' ▸ inside)
  exact ⟨same'.trans same, marker'.trans marker⟩

/-- The body of a network. -/
theorem Means.inside {v : DhcpVersion} {body rest : Config} {g : Globals} {n owner : Nat} {b bs : Int}
    {z : Except Stop (Nat × Globals)} {h : Nat × Globals → Except Stop (Nat × Globals)}
    (inside : Marked n (b + 1) b body.depth →
      Means env incl (Leaves v n (b + 1) b) (⟨g, n, b + 1, b⟩, .fresh) body.tokens z)
    (outside : ∀ {left bs}, z = .ok left → Agrees v left.2.ipVersion →
      Means env incl (Leaves v 0 b bs) (⟨left.2, 0, b, bs⟩, .fresh) rest.tokens (h left)) :
    Means env incl (Leaves v owner b bs) (⟨g, n, b + 1, b⟩, .fresh) (body.tokens ++ .rbrace :: rest.tokens) (z >>= h) := by
  refine (inside (fun _ => Or.inl (Int.lt_succ b))).body ?_
  intro left bs' flows kept agrees
  obtain ⟨bs'', closed⟩ := close_network kept left.2
  rw [closed]
  refine (outside flows agrees).mono ?_
  rintro r left' ⟨bs3, rfl, kept', agrees⟩
  exact ⟨bs3, rfl, fun inside => absurd (kept' inside).1 inside, agrees⟩

theorem netStep {net : List Char} (room : net.length < MAXLEN) (g : Globals) (b bs : Int) :
    tokStep env incl (⟨g, 0, b, bs⟩, .stage .subnet) (.word net) =
      (addNetwork net (-1) g).map (fun g => (⟨g, g.numSharedNetworks, b, b⟩, .fresh)) := by
  have outside : ¬(0 ≠ 0) := fun no => no rfl
  rw [tokStep_word room]
  simp only [argument, if_neg outside, recordNetwork_eq]
  cases addNetwork net (-1) g <;> rfl

theorem maskStep {v : DhcpVersion} {w : List Char} (valid : IsAddress env.inet v w) (room : w.length < MAXLEN) {g : Globals}
    (agrees : Agrees v g.ipVersion) (wanted : (g.sharedNetworks g.numSharedNetworks).netmask ≠ 0) (b : Int) :
    tokStep env incl (⟨g, g.numSharedNetworks, b, b⟩, .stage .mask) (.word w) =
      (addNetmask v (address env.inet v w) g).map (fun g' => (⟨g', g.numSharedNetworks, b, b⟩, .stage .opening)) := by
  rw [tokStep_word room]
  simp only [argument, if_pos wanted, parse_address valid agrees, if_true]
  unfold addNetmask recordNetmask
  cases netmaskLoop 33 (address env.inet v w).v4 32 <;> rfl

/-- A subnet that is a network. -/
theorem Means.subnet {v : DhcpVersion} {net : List Char} {mask : Option (List Char × List Char)} {g : Globals} {b bs : Int}
    {h : Globals → Except Stop α} (room : net.length < MAXLEN)
    (masks : ∀ m ∈ mask, Keyword env .ITS_A_NETMASK m.1 ∧ IsAddress env.inet v m.2 ∧ m.2.length < MAXLEN)
    (agrees : Agrees v g.ipVersion)
    (rest : ∀ g', Agrees v g'.ipVersion → g'.numSharedNetworks ≠ 0 →
      Means env incl R (⟨g', g'.numSharedNetworks, b + 1, b⟩, .fresh) ts (h g')) :
    Means env incl R (⟨g, 0, b, bs⟩, .stage .subnet) (.word net :: (maskTokens mask ++ .lbrace :: ts))
      (addSubnet env.inet v net mask g >>= h) := by
  cases mask with
  | none =>
    refine Means.effect room (netStep room g b bs) (Or.inr ⟨_, _, rfl, fun same => by cases same⟩) ?_
    intro g' added
    obtain ⟨version, positive, -⟩ := addNetwork_fields added
    exact ⟨fun same => (by cases same), .step trivial rfl (fun same => by cases same)
      (rest g' (by rwa [version]) positive)⟩
  | some m =>
    obtain ⟨keyword, valid, short⟩ := masks m rfl
    rw [addSubnet, bind_assoc]
    refine Means.effect room (netStep room g b bs) (Or.inr ⟨_, _, rfl, fun same => by cases same⟩) ?_
    intro g' added
    obtain ⟨version, positive, wanted⟩ := addNetwork_fields added
    have masked := @maskStep env incl v m.2 valid short g' (by rwa [version]) (by rw [wanted]; decide) b
    refine ⟨fun same => (by cases same), Means.keyword keyword ?_⟩
    refine Means.effect short masked (Or.inr ⟨_, _, rfl, fun same => by cases same⟩) ?_
    intro g'' added
    obtain ⟨version, count⟩ := addNetmask_ok added
    refine ⟨fun same => (by cases same), .step trivial rfl (fun same => by cases same) ?_⟩
    have := rest g'' (Or.inr version) (by rwa [count])
    rwa [count] at this

/-- The head of a subnet that is no network. -/
theorem Means.skipped_subnet {word net : List Char} {mask : Option (List Char × List Char)} {g : Globals} {owner : Nat}
    {b bs : Int} (plain : ¬(env.allAsShared = true ∧ owner = 0))
    (keyword : Keyword env (if env.allAsShared then .ITS_A_SUBNET else .ITS_NOTHING_INTERESTING) word)
    (short : env.allAsShared = true → net.length < MAXLEN) (rest : Means env incl R (⟨g, owner, b + 1, bs⟩, .fresh) ts z) :
    Means env incl R (⟨g, owner, b, bs⟩, .fresh) (.word word :: .word net :: (maskTokens mask ++ .lbrace :: ts)) z := by
  have nothing : maskTokens mask = (mask.toList.flatMap (fun m => [Arg.word m.1, Arg.word m.2])).map Arg.tok := by
    cases mask <;> rfl
  have head : ∀ s : Stage, s = .skip ∨ s = .opening →
      Means env incl R (⟨g, owner, b, bs⟩, .stage s) (maskTokens mask ++ .lbrace :: ts) z := by
    intro s ignored
    rw [nothing]
    refine .skip ignored _ ?_
    rcases ignored with rfl | rfl
    · exact .step trivial rfl (fun same => by cases same) rest
    · exact .step trivial rfl (fun same => by cases same) rest
  refine .keyword keyword ?_
  by_cases shared : env.allAsShared = true
  · rw [if_pos shared]
    have ignored : tokStep env incl (⟨g, owner, b, bs⟩, .stage .subnet) (.word net) =
        .ok (⟨g, owner, b, bs⟩, .stage .opening) :=
      (tokStep_word (short shared) _ .subnet).trans (if_pos (fun outside => plain ⟨shared, outside⟩))
    exact .step (short shared) ignored (fun same => by cases same) (head .opening (Or.inr rfl))
  · rw [if_neg shared]
    exact .step trivial rfl (fun same => by cases same) (head .skip (Or.inl rfl))

end

/-- What is asked of the files that a tree includes: nothing if there are none. -/
def Held (env : Env) (incl : List Char → Nat → Globals → Except Stop Globals) (v : DhcpVersion) (owner : Nat)
    (T : Config) : Prop :=
  T.includes = [] ∨ T.Proper env (decide (owner ≠ 0)) ∧ T.Includes env (Keeps incl v) (decide (owner ≠ 0))

/-- The files included in a block and behind it. -/
theorem Held.plain {v : DhcpVersion} {owner : Nat} {body rest : Config}
    (held : body.includes ++ rest.includes = [] ∨
      (body.Proper env (decide (owner ≠ 0)) ∧ rest.Proper env (decide (owner ≠ 0))) ∧
        body.Includes env (Keeps incl v) (decide (owner ≠ 0)) ∧ rest.Includes env (Keeps incl v) (decide (owner ≠ 0))) :
    Held env incl v owner body ∧
      ∀ {g : Globals} {left}, body.flow env v incl owner g = .ok left → Held env incl v left.1 rest := by
  rcases held with none | ⟨⟨properBody, properRest⟩, keepsBody, keepsRest⟩
  · obtain ⟨noneBody, noneRest⟩ := List.append_eq_nil_iff.mp none
    exact ⟨Or.inl noneBody, fun _ => Or.inl noneRest⟩
  · refine ⟨Or.inr ⟨properBody, keepsBody⟩, ?_⟩
    intro g left flows
    rw [flow_effect properBody] at flows
    obtain ⟨g', -, rfl⟩ := map_ok flows
    exact Or.inr ⟨properRest, keepsRest⟩

/-- The files included in a network and behind it. -/
theorem Held.network {v : DhcpVersion} {n : Nat} {body rest : Config} (positive : n ≠ 0)
    (held : body.includes ++ rest.includes = [] ∨ (body.Proper env true ∧ rest.Proper env false) ∧
      body.Includes env (Keeps incl v) true ∧ rest.Includes env (Keeps incl v) false) :
    Held env incl v n body ∧ Held env incl v 0 rest := by
  rcases held with none | ⟨⟨properBody, properRest⟩, keepsBody, keepsRest⟩
  · obtain ⟨noneBody, noneRest⟩ := List.append_eq_nil_iff.mp none
    exact ⟨Or.inl noneBody, Or.inl noneRest⟩
  · rw [← decide_eq_true positive] at properBody keepsBody
    exact ⟨Or.inr ⟨properBody, keepsBody⟩, Or.inr ⟨properRest, keepsRest⟩⟩

/-- The tokens of a valid tree mean its flow. -/
theorem tokens_flow {v : DhcpVersion} {T : Config} : ∀ {owner : Nat} {g : Globals} {b bs : Int}, T.Valid env v →
    Held env incl v owner T → Agrees v g.ipVersion → Marked owner b bs T.depth →
    Means env incl (Leaves v owner b bs) (⟨g, owner, b, bs⟩, .fresh) T.tokens (T.flow env v incl owner g) := by
  induction T with
  | done =>
    intro owner g b bs _ _ agrees _
    exact .done ⟨bs, rfl, fun _ => ⟨rfl, rfl⟩, agrees⟩
  | other keyword args rest ih =>
    intro owner g b bs valid held agrees marked
    rw [Config.tokens, List.cons_append]
    exact .keyword valid.1 (.skip (Or.inl rfl) args (.step trivial rfl (fun same => by cases same)
      (ih valid.2 held agrees marked)))
  | range keyword flag first second rest ih =>
    intro owner g b bs valid held agrees marked
    obtain ⟨keyword, flags, one, two, valid⟩ := valid
    rw [Config.tokens]
    exact .keyword keyword (.range flags one two agrees (ih valid held (Or.inr (addRange_version ..)) marked))
  | included keyword file rest ih =>
    intro owner g b bs valid held agrees marked
    obtain ⟨keyword, filled, valid⟩ := valid
    obtain none | ⟨proper, keeps⟩ := held
    · cases none
    obtain ⟨arm, room⟩ := @argument_step env incl ⟨g, owner, b, bs⟩ _ file (Or.inr rfl) filled
    refine .keyword keyword (.effect (f := fun g' => (⟨g', owner, b, bs⟩, .stage .ended)) room ?_ (Or.inl rfl) ?_)
    · exact arm
    · intro g' read
      have agrees' := keeps.1 owner g g' rfl agrees read
      exact ⟨fun same => (by cases same), .step trivial rfl (fun same => by cases same)
        (ih valid (Or.inr ⟨proper, keeps.2⟩) agrees' marked)⟩
  | network keyword name body rest ihBody ihRest =>
    intro owner g b bs valid held agrees marked
    obtain ⟨keyword, filled, validBody, validRest⟩ := valid
    have held : body.includes ++ rest.includes = [] ∨ (body.Proper env true ∧ rest.Proper env false) ∧
        body.Includes env (Keeps incl v) true ∧ rest.Includes env (Keeps incl v) false := by
      refine held.imp_right ?_
      rintro ⟨⟨outside, proper⟩, keeps⟩
      rw [outside] at proper keeps
      exact ⟨proper, keeps⟩
    obtain ⟨arm, room⟩ := @argument_step env incl ⟨g, owner, b, bs⟩ _ name (Or.inl rfl) filled
    rw [Config.tokens]
    refine .keyword keyword (.effect (f := fun g' => (⟨g', g'.numSharedNetworks, b, b⟩, .stage .opening)) room ?_
      (Or.inr ⟨_, _, rfl, fun same => by cases same⟩) ?_)
    · refine arm.trans ?_
      rw [argument, recordNetwork_eq]
      cases addNetwork name.value 0 g <;> rfl
    · intro g' added
      obtain ⟨version, positive, -⟩ := addNetwork_fields added
      obtain ⟨heldBody, heldRest⟩ := Held.network positive held
      refine ⟨fun same => (by cases same), .step trivial rfl (fun same => by cases same) (.inside ?_ ?_)⟩
      · exact ihBody validBody heldBody (by rwa [version])
      · intro left bs _ agrees
        exact ihRest validRest heldRest agrees (fun inside => absurd rfl inside)
  | subnet word net mask body rest ihBody ihRest =>
    intro owner g b bs valid held agrees marked
    obtain ⟨keyword, validHead, validBody, validRest⟩ := valid
    by_cases network : env.allAsShared = true ∧ owner = 0
    · obtain ⟨shared, rfl⟩ := network
      obtain ⟨short, masks⟩ := validHead shared
      have held : body.includes ++ rest.includes = [] ∨ (body.Proper env true ∧ rest.Proper env false) ∧
          body.Includes env (Keeps incl v) true ∧ rest.Includes env (Keeps incl v) false := by
        refine held.imp_right ?_
        rintro ⟨⟨properBody, properRest⟩, keepsBody, keepsRest⟩
        rw [shared, Bool.or_true] at properBody keepsBody
        exact ⟨⟨properBody, properRest⟩, keepsBody, keepsRest⟩
      rw [if_pos shared] at keyword
      rw [Config.flow, if_pos ⟨shared, rfl⟩]
      simp only [Config.tokens, List.cons_append, List.append_assoc]
      refine .keyword keyword (.subnet short masks agrees ?_)
      intro g' agrees positive
      obtain ⟨heldBody, heldRest⟩ := Held.network positive held
      refine .inside ?_ ?_
      · exact ihBody validBody heldBody agrees
      · intro left bs _ agrees
        exact ihRest validRest heldRest agrees (fun inside => absurd rfl inside)
    · obtain ⟨heldBody, heldRest⟩ : Held env incl v owner body ∧
          ∀ {g : Globals} {left}, body.flow env v incl owner g = .ok left → Held env incl v left.1 rest := by
        refine Held.plain (held.imp_right ?_)
        rintro ⟨⟨properBody, properRest⟩, keepsBody, keepsRest⟩
        rw [within_plain network] at properBody keepsBody
        exact ⟨⟨properBody, properRest⟩, keepsBody, keepsRest⟩
      rw [Config.flow, if_neg network]
      simp only [Config.tokens, List.cons_append, List.append_assoc]
      exact .skipped_subnet network keyword (fun shared => (validHead shared).1) (.plain marked (ihBody validBody heldBody agrees)
        (fun flows agrees marked => ihRest validRest (heldRest flows) agrees marked))
  | block keyword args body rest ihBody ihRest =>
    intro owner g b bs valid held agrees marked
    obtain ⟨keyword, validBody, validRest⟩ := valid
    obtain ⟨heldBody, heldRest⟩ := Held.plain held
    simp only [Config.tokens, List.cons_append, List.append_assoc]
    refine .keyword keyword (.skip (Or.inl rfl) args (.step trivial rfl (fun same => by cases same) ?_))
    exact .plain marked (ihBody validBody heldBody agrees)
      (fun flows agrees marked => ihRest validRest (heldRest flows) agrees marked)

/-- The state behind a tree without nested networks. -/
def Back (v : DhcpVersion) (owner : Nat) (b bs : Int) (r : Core × Clause) (g : Globals) : Prop :=
  ∃ bs', r = (⟨g, owner, b, bs'⟩, .fresh) ∧ (owner ≠ 0 → bs' = bs) ∧ Agrees v g.ipVersion

/-- The tokens of a valid tree without nested networks mean its effect. -/
theorem tokens_effect {v : DhcpVersion} {T : Config} {owner : Nat} {g : Globals} {b bs : Int} (valid : T.Valid env v)
    (proper : T.Proper env (decide (owner ≠ 0))) (keeps : T.Includes env (Keeps incl v) (decide (owner ≠ 0)))
    (agrees : Agrees v g.ipVersion) (marked : Marked owner b bs T.depth) :
    Means env incl (Back v owner b bs) (⟨g, owner, b, bs⟩, .fresh) T.tokens (T.effect env v incl owner g) := by
  have means := tokens_flow valid (Or.inr ⟨proper, keeps⟩) agrees marked
  rw [flow_effect proper] at means
  refine means.of_map.mono ?_
  rintro r g' ⟨bs', rfl, kept, agrees⟩
  exact ⟨bs', rfl, fun inside => (kept inside).2, agrees⟩

end

end DhcpdPools.ConfigMeaning
