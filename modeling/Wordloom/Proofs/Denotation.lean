import Mathlib.Data.List.Basic
import Mathlib.Data.List.Nodup
import Wordloom.Proofs.Tracks

/-!
# Wordloom.Proofs.Denotation

What compiled code stands for, as an evaluation of patterns. Code that calls subroutines stands for
something only where the subroutines that it knows do what they should; and since those may call each
other, that they do is shown for one depth of calls after the other.
-/

namespace Wordloom

/-! ## Lists put together -/

section

variable {env : Environment} {lower : Option Runner} {a : Activation}

/-- Code behind other code is run when that is done. -/
theorem Code.run_append : ∀ (c d : Code) (base : Nat), (c.append d).run env lower a base =
    (do c.run env lower a base; d.run env lower a (base + c.size))
  | .nil, d, base => by simp [Code.append, Code.run, Code.size]
  | .act _ _ next, d, base | .block _ _ next, d, base | .define _ _ next, d, base
  | .program _ _ _ next, d, base => by
    simp only [Code.append, Code.run, Code.size, Code.run_append next d, bind_assoc, Nat.add_assoc]
  | .ifThen _ _ _ next, d, base | .ifElse _ _ _ _ next, d, base | .call _ _ _ next, d, base
  | .native _ _ _ next, d, base => by
    simp only [Code.append, Code.run, Code.size, Code.run_append next d, bind_assoc, Nat.add_assoc]
    refine bind_congr fun values => ?_
    split <;> simp only [bind_assoc]

theorem Operands.run_append : ∀ (c d : Operands) (base : Nat), (c.append d).run env lower a base =
    (do
      let values ← c.run env lower a base
      let more ← d.run env lower a (base + c.size)
      return values ++ more)
  | .nil, d, base => by simp [Operands.append, Operands.run, Operands.size]
  | .constant _ next, d, base | .capture _ _ next, d, base | .pointer _ next, d, base => by
    simp [Operands.append, Operands.run, Operands.size, Operands.run_append next d, Nat.add_assoc]

end

/-! ## Levels -/

/-- Runs code inside an activation that may have so many inside it. -/
def Runner.below (env : Environment) : (depth : Nat) → Option Runner
  | 0 => none
  | depth + 1 => some (Code.runner env depth)

theorem Code.runner_eq (env : Environment) (depth : Nat) :
    Code.runner env depth = Code.run env (Runner.below env depth) := by
  cases depth <;> rfl

/-- Evaluates patterns inside a call that may have so many inside it. -/
def Interpreter.below : (depth : Nat) → Option Interpreter
  | 0 => none
  | depth + 1 => some (upTo depth)

theorem Interpreter.upTo_apply (depth : Nat) (known : List Procedure) (params : Parameters)
    (p : Pattern) : upTo depth known params p = p.eval (below depth) params known := by
  cases depth <;> rfl

/-- What an evaluation inside a call depends on: how many calls there may be inside it, and its
arguments. -/
structure Call where
  depth : Nat
  args : List Value

/-- An evaluation inside a call. -/
abbrev Sense := ReaderT Call Direct

variable {names : String → Option Nat} {a : Activation}

theorem Tracks.bindAt {x : Evaluating α} {f : α → Evaluating β} {y : Sense α} {g : α → Sense β}
    {call : Call} (h : Tracks names x (y call)) (hf : ∀ a, Tracks names (f a) (g a call)) :
    Tracks names (x >>= f) ((y >>= g) call) :=
  h.bind fun a _ => hf a

/-- What a pattern stands for where these names are known. -/
def Scoping.denote (s : Scoping) (p : Pattern) : Sense Unit := fun call =>
  p.eval (Interpreter.below call.depth) ⟨s.params, call.args⟩ s.procedures

/-! ## Subroutines -/

/-- A subroutine with the address of its code. -/
structure Link where
  procedure : Procedure
  address : Nat

/-- At this depth, the code at the address does what the subroutine does; `outer` are those that it
knows beside itself. -/
def Link.Works (env : Environment) (a : Activation) (depth : Nat) (link : Link)
    (outer : List Link) : Prop :=
  ∃ d, a.definition? link.address link.procedure.params.length = some d ∧
    ∀ (limit : Nat) (args : List Value) (captured : Bool), depth ≤ limit → ∃ names,
      Tracks names
        (Evaluating.enter env (Runner.below env depth) { a with args := args, captured := captured }
          link.address d.body)
        (Direct.enter (Interpreter.below limit) (link.procedure :: outer.map (·.procedure))
          ⟨link.procedure.params, args⟩ link.procedure.body)

/-- All these subroutines work, the last one first, up to this depth. -/
def Linked (env : Environment) (a : Activation) (depth : Nat) : List Link → Prop
  | [] => True
  | link :: outer => (∀ n ≤ depth, link.Works env a n outer) ∧ Linked env a depth outer

theorem Linked.mono {env : Environment} {depth n : Nat} (hn : n ≤ depth) :
    ∀ {links : List Link}, Linked env a depth links → Linked env a n links
  | [], _ => trivial
  | _ :: _, h => ⟨fun k hk => h.1 k (Nat.le_trans hk hn), Linked.mono hn h.2⟩

/-- Subroutines do not depend on the call that they are known in. -/
theorem Linked.congr {env : Environment} {depth : Nat} (args : List Value) (captured : Bool) :
    ∀ {links : List Link}, Linked env a depth links →
    Linked env { a with args := args, captured := captured } depth links
  | [], _ => trivial
  | _ :: _, h => ⟨h.1, Linked.congr args captured h.2⟩

/-- The subroutine that a name stands for, and those that it knows beside itself. -/
def Link.find? (name : String) : List Link → Option (Link × List Link)
  | [] => none
  | link :: outer => if link.procedure.name = name then some (link, outer) else find? name outer

theorem Link.find?_procedure (name : String) (links : List Link) :
    Procedure.find? name (links.map (·.procedure)) =
      (Link.find? name links).map fun found => (found.1.procedure, found.2.map (·.procedure)) := by
  induction links with
  | nil => rfl
  | cons link outer ih =>
    rw [List.map_cons, Procedure.find?, Link.find?]
    split
    · rfl
    · exact ih

/-- The subroutine that a name stands for does what it should. -/
theorem Linked.works {env : Environment} {depth : Nat} {name : String} {link : Link} {outer : List Link} :
    ∀ {links : List Link}, Linked env a depth links →
    Link.find? name links = some (link, outer) → link.Works env a depth outer
  | [], _, hfind => by cases hfind
  | _ :: _, h, hfind => by
    rw [Link.find?] at hfind
    split at hfind
    · cases hfind
      exact h.1 depth (Nat.le_refl _)
    · exact Linked.works h.2 hfind

/-- The definitions are those of the activation's program. -/
def Activation.Finds (a : Activation) (ds : List Definition) : Prop :=
  ∀ d ∈ ds, a.definition? d.address d.arity = some d

/-! ### Their addresses -/

/-- Subroutines in the order of their addresses, which are between two offsets. -/
structure Definition.Ascend (low high : Nat) (ds : List Definition) : Prop where
  sorted : ds.Pairwise (·.address < ·.address)
  low : ∀ d ∈ ds, low < d.address
  high : ∀ d ∈ ds, d.address ≤ high

namespace Definition.Ascend

variable {low low' m high high' : Nat} {ds es : List Definition}

theorem nil : Ascend low high [] := ⟨.nil, by simp, by simp⟩

theorem mono (h : Ascend low' high' ds) (hlow : low ≤ low') (hhigh : high' ≤ high) :
    Ascend low high ds :=
  ⟨h.sorted, fun d hd => Nat.lt_of_le_of_lt hlow (h.low d hd),
    fun d hd => Nat.le_trans (h.high d hd) hhigh⟩

theorem append (h : Ascend low m ds) (h' : Ascend m high es) (hlow : low ≤ m)
    (hhigh : m ≤ high) : Ascend low high (ds ++ es) where
  sorted := List.pairwise_append.2 ⟨h.sorted, h'.sorted, fun d hd e he =>
    Nat.lt_of_le_of_lt (h.high d hd) (h'.low e he)⟩
  low d hd := by
    obtain hd | hd := List.mem_append.1 hd
    · exact h.low d hd
    · exact Nat.lt_of_le_of_lt hlow (h'.low d hd)
  high d hd := by
    obtain hd | hd := List.mem_append.1 hd
    · exact Nat.le_trans (h.high d hd) hhigh
    · exact h'.high d hd

theorem cons {d : Definition} (h : Ascend d.address high ds) (hlow : low < d.address)
    (hhigh : d.address ≤ high) : Ascend low high (d :: ds) where
  sorted := List.pairwise_cons.2 ⟨h.low, h.sorted⟩
  low e he := by
    obtain rfl | he := List.mem_cons.1 he
    · exact hlow
    · exact Nat.lt_trans hlow (h.low e he)
  high e he := by
    obtain rfl | he := List.mem_cons.1 he
    · exact hhigh
    · exact h.high e he

/-- No two of them have the same address. -/
theorem eq_of_address (h : Ascend low high ds) {d e : Definition} (hd : d ∈ ds) (he : e ∈ ds)
    (haddress : d.address = e.address) : d = e := by
  have hnodup : (ds.map (·.address)).Nodup := by
    rw [List.Nodup, List.pairwise_map]
    exact h.sorted.imp Nat.ne_of_lt
  exact List.inj_on_of_nodup_map hnodup hd he haddress

end Definition.Ascend

mutual

/-- The subroutines in code stand in the order of their addresses. -/
theorem Code.ascend_definitions : ∀ (code : Code) (base : Nat),
    Definition.Ascend base (base + code.size) (code.definitions base)
  | .nil, base => .nil
  | .act os a next, base => by
    rw [Code.definitions, Code.size]
    exact (os.ascend_definitions base).append
      ((next.ascend_definitions _).mono (by omega) (by omega)) (by omega) (by omega)
  | .ifThen os test yes next, base => by
    rw [Code.definitions, Code.size]
    refine .append (m := base + os.size + 11 + yes.size) ?_
      ((next.ascend_definitions _).mono (by omega) (by omega)) (by omega) (by omega)
    exact (os.ascend_definitions base).append
      ((yes.ascend_definitions _).mono (by omega) (by omega)) (by omega) (by omega)
  | .ifElse os test yes no next, base => by
    rw [Code.definitions, Code.size]
    refine .append (m := base + os.size + 11 + yes.size + 5 + no.size) ?_
      ((next.ascend_definitions _).mono (by omega) (by omega)) (by omega) (by omega)
    refine .append (m := base + os.size + 11 + yes.size) ?_
      ((no.ascend_definitions _).mono (by omega) (by omega)) (by omega) (by omega)
    exact (os.ascend_definitions base).append
      ((yes.ascend_definitions _).mono (by omega) (by omega)) (by omega) (by omega)
  | .block index choices next, base => by
    rw [Code.definitions, Code.size]
    exact .append ((choices.ascend_definitions _).mono (by omega) (Nat.le_refl _))
      ((next.ascend_definitions _).mono (Nat.le_refl _) (by omega)) (by omega) (by omega)
  | .define arity body next, base => by
    rw [Code.definitions, Code.size]
    refine .append (m := base + 5 + body.size + 1) ?_
      ((next.ascend_definitions _).mono (Nat.le_refl _) (by omega)) (by omega) (by omega)
    exact .cons ((body.ascend_definitions _).mono (Nat.le_refl _) (by omega)) (by simp) (by simp; omega)
  | .call os _ _ next, base | .native os _ _ next, base => by
    rw [Code.definitions, Code.size]
    exact (os.ascend_definitions base).append
      ((next.ascend_definitions _).mono (by omega) (by omega)) (by omega) (by omega)
  | .program index target code next, base => by
    rw [Code.definitions, Code.size]
    exact (next.ascend_definitions _).mono (by omega) (by omega)

theorem Operands.ascend_definitions : ∀ (os : Operands) (base : Nat),
    Definition.Ascend base (base + os.size) (os.definitions base)
  | .nil, base => .nil
  | .constant c next, base => by
    rw [Operands.definitions, Operands.size]
    exact (next.ascend_definitions _).mono (by omega) (by omega)
  | .capture _ body next, base | .pointer body next, base => by
    rw [Operands.definitions, Operands.size]
    exact .append ((body.ascend_definitions _).mono (by omega) (Nat.le_refl _))
      ((next.ascend_definitions _).mono (by omega) (by omega)) (by omega) (by omega)

theorem Choices.ascend_definitions : ∀ (choices : Choices) (base : Nat),
    Definition.Ascend base (base + choices.size) (choices.definitions base)
  | .nil, base => .nil
  | .item weight body next, base => by
    rw [Choices.definitions, Choices.size]
    exact (body.ascend_definitions base).append
      ((next.ascend_definitions _).mono (by omega) (by omega)) (by omega) (by omega)
  | .weighted weight body next, base => by
    rw [Choices.definitions, Choices.size]
    refine .append (m := base + 1 + weight.size + 2 + body.size + 1) ?_
      ((next.ascend_definitions _).mono (Nat.le_refl _) (by omega)) (by omega) (by omega)
    exact .append ((weight.ascend_definitions _).mono (by omega) (Nat.le_refl _))
      ((body.ascend_definitions _).mono (by omega) (by omega)) (by omega) (by omega)

end

/-- Every subroutine of a program is found by its address. -/
theorem Activation.finds_definitions (a : Activation) : a.Finds (a.code.definitions 0) := by
  intro d hd
  obtain ⟨e, he⟩ : ∃ e, a.definition? d.address d.arity = some e := by
    rw [← Option.isSome_iff_exists, Activation.definition?, List.find?_isSome]
    exact ⟨d, hd, by simp⟩
  have hfound := List.find?_some he
  simp only [Bool.and_eq_true, beq_iff_eq] at hfound
  rw [he, (a.code.ascend_definitions 0).eq_of_address (List.mem_of_find?_eq_some he) hd hfound.1]

/-! ## Names -/

/-- The locals that names stand for: these, each by its place, and maybe others. -/
structure Covers (names : String → Option Nat) (locals : List String) : Prop where
  place : ∀ x ∈ locals, names x = some (locals.idxOf x)
  unique : ∀ x y i, names x = some i → names y = some i → x = y

theorem Covers.of_append {locals more : List String} (h : Covers names (locals ++ more)) :
    Covers names locals where
  place x hx := by rw [h.place x (List.mem_append_left _ hx), List.idxOf_append_of_mem hx]
  unique := h.unique

/-- The names of exactly these locals. -/
def placeIn (locals : List String) (name : String) : Option Nat :=
  if name ∈ locals then some (locals.idxOf name) else none

/-- Variables have the places at which they are listed. -/
theorem covers_placeIn (locals : List String) : Covers (placeIn locals) locals where
  place x hx := if_pos hx
  unique x y i hx hy := by
    unfold placeIn at hx hy
    split at hx
    · split at hy
      · rename_i hmem hmem'
        have hidx : locals.idxOf x = locals.idxOf y :=
          (Option.some.inj hx).trans (Option.some.inj hy).symm
        exact (List.idxOf_inj hmem).1 hidx
      · cases hy
    · cases hx

/-! ## Code -/

/-- Where code that knows these subroutines and locals is run. -/
structure Activation.Serves (env : Environment) (links : List Link) (locals : List String)
    (names : String → Option Nat) (depth limit : Nat) (a : Activation) : Prop where
  le : depth ≤ limit
  covers : Covers names locals
  linked : Linked env a depth links

/-- Code that knows the subroutines `before` stands for an evaluation, and behind it the subroutines
`after` are known. -/
structure Code.Means (env : Environment) (before after : List Link) (locals : List String)
    (base : Nat) (code : Code) (y : Sense Unit) : Prop where
  runs : ∀ {a : Activation} {names : String → Option Nat} {depth limit : Nat},
    a.Serves env before locals names depth limit → a.Finds (code.definitions base) →
    Tracks names (code.run env (Runner.below env depth) a base) (y ⟨limit, a.args⟩)
  links : ∀ {a : Activation} {depth : Nat}, a.Finds (code.definitions base) →
    Linked env a depth before → Linked env a depth after

/-- Operands stand for an evaluation of their values. -/
structure Operands.Means (env : Environment) (before after : List Link) (locals : List String)
    (base : Nat) (os : Operands) (y : Sense (List Value)) : Prop where
  runs : ∀ {a : Activation} {names : String → Option Nat} {depth limit : Nat},
    a.Serves env before locals names depth limit → a.Finds (os.definitions base) →
    Tracks names (os.run env (Runner.below env depth) a base) (y ⟨limit, a.args⟩)
  links : ∀ {a : Activation} {depth : Nat}, a.Finds (os.definitions base) →
    Linked env a depth before → Linked env a depth after

/-- The items of a block stand for evaluations of their weights and bodies. -/
structure Choices.Means (env : Environment) (before after : List Link) (locals : List String)
    (base : Nat) (choices : Choices) (weights : Sense (List Float))
    (bodies : Nat → Sense Unit) : Prop where
  weights : ∀ {a : Activation} {names : String → Option Nat} {depth limit : Nat},
    a.Serves env before locals names depth limit → a.Finds (choices.definitions base) →
    Tracks names ((choices.weights env (Runner.below env depth) a base).mapM id)
      (weights ⟨limit, a.args⟩)
  bodies : ∀ {a : Activation} {names : String → Option Nat} {depth limit : Nat},
    a.Serves env before locals names depth limit → a.Finds (choices.definitions base) →
    ∀ (i : Nat) (body : Evaluating Unit),
      (choices.bodies env (Runner.below env depth) a base)[i]? = some body →
      Tracks names body (bodies i ⟨limit, a.args⟩)
  links : ∀ {a : Activation} {depth : Nat}, a.Finds (choices.definitions base) →
    Linked env a depth before → Linked env a depth after

theorem Activation.Finds.left {ds es : List Definition} (h : a.Finds (ds ++ es)) :
    a.Finds ds := fun d hd => h d (List.mem_append_left _ hd)

theorem Activation.Finds.right {ds es : List Definition} (h : a.Finds (ds ++ es)) :
    a.Finds es := fun d hd => h d (List.mem_append_right _ hd)

variable {env : Environment} {before middle after : List Link} {locals more : List String}
  {base : Nat}

theorem Activation.Serves.of_append {depth limit : Nat}
    (h : a.Serves env before (locals ++ more) names depth limit) :
    a.Serves env before locals names depth limit := ⟨h.le, h.covers.of_append, h.linked⟩

namespace Code.Means

variable {code next : Code} {y z : Sense Unit}

theorem nil : Code.nil.Means env before before locals base (pure ()) where
  runs _ _ := by
    rw [Code.run]
    exact Tracks.pure ()
  links _ h := h

theorem append (h : code.Means env before middle locals base y)
    (h' : next.Means env middle after locals (base + code.size) z) :
    (code.append next).Means env before after locals base (do y; z) where
  runs hserves hfinds := by
    rw [Code.definitions_append] at hfinds
    rw [Code.run_append]
    refine (h.runs hserves hfinds.left).seq (h'.runs ?_ hfinds.right)
    exact ⟨hserves.le, hserves.covers, h.links hfinds.left hserves.linked⟩
  links hfinds hlinked := by
    rw [Code.definitions_append] at hfinds
    exact h'.links hfinds.right (h.links hfinds.left hlinked)

theorem mono (h : code.Means env before after locals base y) :
    code.Means env before after (locals ++ more) base y where
  runs hserves hfinds := h.runs hserves.of_append hfinds
  links := h.links

end Code.Means

/-! ## Operands -/

/-- What an evaluation prints to a text of its own. -/
def Sense.capture (y : Sense Unit) : Sense String := fun call =>
  Direct.capture (y call)

namespace Operands.Means

variable {os o : Operands} {y z : Sense (List Value)}

theorem nil : Operands.nil.Means env before before locals base (pure []) where
  runs _ _ := by
    rw [Operands.run]
    exact Tracks.pure []
  links _ h := h

theorem append (h : os.Means env before middle locals base y)
    (h' : o.Means env middle after locals (base + os.size) z) :
    (os.append o).Means env before after locals base
      (do
        let values ← y
        let more ← z
        return values ++ more) where
  runs hserves hfinds := by
    rw [Operands.definitions_append] at hfinds
    rw [Operands.run_append]
    refine (h.runs hserves hfinds.left).bindAt fun values => ?_
    refine (h'.runs ?_ hfinds.right).bindAt fun more => Tracks.pure _
    exact ⟨hserves.le, hserves.covers, h.links hfinds.left hserves.linked⟩
  links hfinds hlinked := by
    rw [Operands.definitions_append] at hfinds
    exact h'.links hfinds.right (h.links hfinds.left hlinked)

theorem mono (h : os.Means env before after locals base y) :
    os.Means env before after (locals ++ more) base y where
  runs hserves hfinds := h.runs hserves.of_append hfinds
  links := h.links

theorem constant (c : Constant) :
    (Operands.constant c .nil).Means env before before locals base (pure [c.value]) where
  runs _ _ := by
    simp only [Operands.run, pure_bind]
    exact Tracks.pure _
  links _ h := h

/-- A captured operand is what its pattern prints. -/
theorem capture (hcapitals : env.options.capitals = .none) {numeric : Bool} {body : Code}
    {y : Sense Unit} (h : body.Means env before after locals (base + 1) y) :
    (Operands.capture numeric body .nil).Means env before after locals base
      (do return [capturedValue numeric (← y.capture)]) where
  runs hserves hfinds := by
    simp only [Operands.definitions, List.append_nil] at hfinds
    simp only [Operands.run, pure_bind]
    refine Tracks.bindAt (y := y.capture) (.capture hcapitals (h.runs ?_ hfinds)) fun text =>
      Tracks.pure _
    exact ⟨hserves.le, hserves.covers, hserves.linked.congr _ _⟩
  links hfinds hlinked := by
    simp only [Operands.definitions, List.append_nil] at hfinds
    exact h.links hfinds hlinked

end Operands.Means

/-! ## Items -/

/-- There is a weight for every item. -/
theorem Choices.length_weights {lower : Option Runner} : ∀ (cs : Choices)
    (base : Nat), (cs.weights env lower a base).length = cs.count
  | .nil, _ => by rw [Choices.weights, Choices.count, List.length_nil]
  | .item _ _ next, _ | .weighted _ _ next, _ => by
    rw [Choices.weights, List.length_cons, Choices.count, next.length_weights]

/-- The first of some bodies, or one of the others. -/
def bodiesCons (y : Sense Unit) (bodies : Nat → Sense Unit) : Nat → Sense Unit
  | 0 => y
  | i + 1 => bodies i

namespace Choices.Means

variable {choices next : Choices} {weights : Sense (List Float)}
  {bodies : Nat → Sense Unit} {body weight : Code} {y z : Sense Unit}

theorem nil (bodies : Nat → Sense Unit) :
    Choices.nil.Means env before before locals base (pure []) bodies where
  weights _ _ := Tracks.pure []
  bodies _ _ i body hbody := by simp [Choices.bodies] at hbody
  links _ h := h

theorem item (bits : Option UInt64) (h : body.Means env before middle locals base y)
    (hnext : next.Means env middle after locals (base + body.size + 1) weights bodies) :
    (Choices.item bits body next).Means env before after locals base
      (do return constantWeight bits :: (← weights)) (bodiesCons y bodies) where
  weights hserves hfinds := by
    rw [Choices.definitions] at hfinds
    simp only [Choices.weights, List.mapM_cons, id, pure_bind]
    refine Tracks.bindAt (hnext.weights ?_ hfinds.right) fun ws => Tracks.pure _
    exact ⟨hserves.le, hserves.covers, h.links hfinds.left hserves.linked⟩
  bodies hserves hfinds i x hx := by
    rw [Choices.definitions] at hfinds
    rw [Choices.bodies] at hx
    cases i with
    | zero =>
      cases hx
      exact h.runs hserves hfinds.left
    | succ i =>
      refine hnext.bodies ?_ hfinds.right i x hx
      exact ⟨hserves.le, hserves.covers, h.links hfinds.left hserves.linked⟩
  links hfinds hlinked := by
    rw [Choices.definitions] at hfinds
    exact hnext.links hfinds.right (h.links hfinds.left hlinked)

theorem weighted {last : List Link} (hcapitals : env.options.capitals = .none)
    (hweight : weight.Means env before middle locals (base + 1) y)
    (hbody : body.Means env middle after locals (base + 1 + weight.size + 2) z)
    (hnext : next.Means env after last locals (base + 1 + weight.size + 2 + body.size + 1) weights
      bodies) :
    (Choices.weighted weight body next).Means env before last locals base
      (do
        let text ← y.capture
        return spelledWeight text :: (← weights)) (bodiesCons z bodies) where
  weights {a names depth limit} hserves hfinds := by
    simp only [Choices.definitions] at hfinds
    have hmiddle := hweight.links hfinds.left.left hserves.linked
    have hlast := hbody.links hfinds.left.right hmiddle
    -- the code of a weight is run one level deeper
    have henter : Tracks names
        (Evaluating.enter env (Runner.below env depth) { a with captured := true } (base + 1) weight)
        (y ⟨limit, a.args⟩) := by
      have hle := hserves.le
      cases depth with
      | zero => exact fun _ _ _ => .inl (.callStackOverflow _)
      | succ depth =>
        change Tracks names (Code.runner env depth _ _ _) _
        rw [Code.runner_eq]
        refine hweight.runs (a := { a with captured := true }) ⟨by omega, hserves.covers, ?_⟩
          hfinds.left.left
        exact (hserves.linked.mono (Nat.le_succ depth)).congr _ _
    simp only [Choices.weights, List.mapM_cons, id, bind_assoc, pure_bind]
    refine Tracks.bindAt (y := y.capture) (.capture hcapitals henter) fun text => ?_
    refine Tracks.bindAt (hnext.weights ?_ hfinds.right) fun ws => Tracks.pure _
    exact ⟨hserves.le, hserves.covers, hlast⟩
  bodies hserves hfinds i x hx := by
    simp only [Choices.definitions] at hfinds
    have hmiddle := hweight.links hfinds.left.left hserves.linked
    rw [Choices.bodies] at hx
    cases i with
    | zero =>
      cases hx
      exact hbody.runs ⟨hserves.le, hserves.covers, hmiddle⟩ hfinds.left.right
    | succ i =>
      refine hnext.bodies ?_ hfinds.right i x hx
      exact ⟨hserves.le, hserves.covers, hbody.links hfinds.left.right hmiddle⟩
  links hfinds hlinked := by
    simp only [Choices.definitions] at hfinds
    exact hnext.links hfinds.right
      (hbody.links hfinds.left.right (hweight.links hfinds.left.left hlinked))

end Choices.Means

/-! ## Statements -/

namespace Code.Means

variable {os : Operands} {y : Sense (List Value)}

/-- An act does what it does with the values of its operands. -/
theorem act {act : Act} {f : List Value → Sense Unit}
    (h : os.Means env before after locals base y)
    (hact : ∀ {a : Activation} {names : String → Option Nat} (limit : Nat) (values : List Value),
      Covers names locals → Tracks names (act.perform env a values) (f values ⟨limit, a.args⟩)) :
    (Code.act os act .nil).Means env before after locals base (do f (← y)) where
  runs hserves hfinds := by
    simp only [Code.definitions, List.append_nil] at hfinds
    simp only [Code.run, bind_pure_unit]
    exact (h.runs hserves hfinds).bindAt fun values => hact _ values hserves.covers
  links hfinds hlinked := by
    simp only [Code.definitions, List.append_nil] at hfinds
    exact h.links hfinds hlinked

theorem print (text : String) :
    (Code.act .nil (.print text) .nil).Means env before before locals base
      (fun _ => Direct.print text) := by
  have hnil : Operands.nil.Means env before before locals base (pure []) := .nil
  exact act (f := fun _ _ => Direct.print text) hnil fun _ _ _ => Tracks.print _ _ _

variable {test : Test} {yes no : Code} {z z' : Sense Unit}

/-- A branch is run if the comparison holds. -/
theorem ifThen (h : os.Means env before middle locals base y)
    (hyes : yes.Means env middle after locals (base + os.size + 11) z) :
    (Code.ifThen os test yes .nil).Means env before after locals base
      (do
        let values ← y
        if test.holdsFor values then z else pure ()) where
  runs hserves hfinds := by
    simp only [Code.definitions, List.append_nil] at hfinds
    simp only [Code.run, bind_pure_unit]
    refine (h.runs hserves hfinds.left).bindAt fun values => ?_
    split
    · exact hyes.runs ⟨hserves.le, hserves.covers, h.links hfinds.left hserves.linked⟩ hfinds.right
    · exact Tracks.pure ()
  links hfinds hlinked := by
    simp only [Code.definitions, List.append_nil] at hfinds
    exact hyes.links hfinds.right (h.links hfinds.left hlinked)

/-- Of two branches, the comparison chooses one. -/
theorem ifElse {last : List Link} (h : os.Means env before middle locals base y)
    (hyes : yes.Means env middle after locals (base + os.size + 11) z)
    (hno : no.Means env after last locals (base + os.size + 11 + yes.size + 5) z') :
    (Code.ifElse os test yes no .nil).Means env before last locals base
      (do
        let values ← y
        if test.holdsFor values then z else z') where
  runs hserves hfinds := by
    simp only [Code.definitions, List.append_nil] at hfinds
    simp only [Code.run, bind_pure_unit]
    have hmiddle := h.links hfinds.left.left hserves.linked
    refine (h.runs hserves hfinds.left.left).bindAt fun values => ?_
    split
    · exact hyes.runs ⟨hserves.le, hserves.covers, hmiddle⟩ hfinds.left.right
    · exact hno.runs ⟨hserves.le, hserves.covers, hyes.links hfinds.left.right hmiddle⟩ hfinds.right
  links hfinds hlinked := by
    simp only [Code.definitions, List.append_nil] at hfinds
    exact hno.links hfinds.right
      (hyes.links hfinds.left.right (h.links hfinds.left.left hlinked))

/-- A call of a subroutine that a name stands for. -/
theorem call {name : String} {link : Link} {outer : List Link} {count : UInt8}
    (hfind : Link.find? name before = some (link, outer))
    (hcount : count.toNat = link.procedure.params.length)
    (h : os.Means env before after locals base y) :
    (Code.call os link.address count .nil).Means env before after locals base
      (do
        let values ← y
        fun call => Direct.activate
          (Direct.enter (Interpreter.below call.depth)
            (link.procedure :: outer.map (·.procedure)) ⟨link.procedure.params, values⟩
            link.procedure.body)) where
  runs {a names depth limit} hserves hfinds := by
    simp only [Code.definitions, List.append_nil] at hfinds
    simp only [Code.run, bind_pure_unit]
    refine (h.runs hserves hfinds).bindAt fun values => ?_
    obtain ⟨d, hd, hworks⟩ := hserves.linked.works hfind
    obtain ⟨inner, htracks⟩ := hworks limit values a.captured hserves.le
    rw [hcount, hd]
    exact Tracks.activate htracks
  links hfinds hlinked := by
    simp only [Code.definitions, List.append_nil] at hfinds
    exact h.links hfinds hlinked

/-- A subroutine that is defined works, because at each depth its body may use that it does at those
below. -/
theorem define {p : Procedure} {body : Code} {inner : List String} {known : List Link}
    (h : body.Means env (⟨p, base + 5⟩ :: before) known inner (base + 5)
      (Scoping.denote ⟨p.params, [], p :: before.map (·.procedure)⟩ p.body)) :
    (Code.define p.params.length body .nil).Means env before (⟨p, base + 5⟩ :: before) locals base
      (pure ()) where
  runs _ _ := by
    simp only [Code.run]
    exact Tracks.pure ()
  links {a depth} hfinds hlinked := by
    simp only [Code.definitions, List.append_nil] at hfinds
    have hfound : a.definition? (base + 5) p.params.length =
        some ⟨base + 5, p.params.length, body⟩ := hfinds _ List.mem_cons_self
    have hinside : ∀ (args : List Value) (captured : Bool),
        ({ a with args := args, captured := captured } : Activation).Finds
          (body.definitions (base + 5)) := fun _ _ d hd => hfinds d (List.mem_cons_of_mem _ hd)
    refine ⟨fun n hn => ?_, hlinked⟩
    induction n using Nat.strongRecOn with
    | ind n ih =>
      refine ⟨_, hfound, fun limit args captured hlimit => ?_⟩
      cases n with
      | zero => exact ⟨placeIn inner, fun _ _ _ => .inl (.callStackOverflow _)⟩
      | succ n =>
        obtain ⟨limit, rfl⟩ : ∃ k, limit = k + 1 := ⟨limit - 1, by omega⟩
        refine ⟨placeIn inner, ?_⟩
        have hserves : ({ a with args := args, captured := captured } : Activation).Serves env
            (⟨p, base + 5⟩ :: before) inner (placeIn inner) n limit := by
          refine ⟨by omega, covers_placeIn inner, Linked.congr args captured ⟨?_, ?_⟩⟩
          · exact fun k hk => ih k (by omega) (by omega)
          · exact hlinked.mono (by omega)
        have hruns := h.runs hserves (hinside args captured)
        rw [← Code.runner_eq] at hruns
        have hdenote : Scoping.denote ⟨p.params, [], p :: before.map (·.procedure)⟩ p.body
            ⟨limit, args⟩ = Direct.enter (Interpreter.below (limit + 1))
              (p :: before.map (·.procedure)) ⟨p.params, args⟩ p.body :=
          (Interpreter.upTo_apply _ _ _ _).symm
        rw [hdenote] at hruns
        exact hruns

/-- A block with items. -/
theorem block {index : Nat} {choices : Choices} {weights : Sense (List Float)}
    {bodies : Nat → Sense Unit} (hcount : 0 < choices.count)
    (h : choices.Means env before after locals (base + 5) weights bodies) :
    (Code.block index choices .nil).Means env before after locals base
      (do
        let weights ← weights
        let choice ← (Direct.choose weights : Sense Nat)
        bodies choice) where
  runs hserves hfinds := by
    simp only [Code.definitions, List.append_nil] at hfinds
    simp only [Code.run, bind_pure_unit]
    refine Tracks.block ?_ ?_ (h.weights hserves hfinds) (h.bodies hserves hfinds)
    · rw [Choices.length_weights, Choices.length_bodies]
    · rw [Choices.length_bodies]
      exact hcount
  links hfinds hlinked := by
    simp only [Code.definitions, List.append_nil] at hfinds
    exact h.links hfinds hlinked

end Code.Means

end Wordloom
