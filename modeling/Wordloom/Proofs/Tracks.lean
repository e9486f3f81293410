import Wordloom.Proofs.Blocks
import Wordloom.Proofs.Direct
import Wordloom.Proofs.Printing

/-!
# Wordloom.Proofs.Tracks

Two evaluations side by side: one of code, with writers and locals by index, and one of a pattern,
with a text and variables by name. They keep in step as long as nothing but plain text is printed,
and they end alike unless a limit ends the first.
-/

namespace Wordloom

/-! ## Plain output -/

/-- A writer to which only plain text has been printed. -/
def Writer.plain (text : String) : Writer where
  chains := #[{ Chain.new mainChannel .visible .none with current := text }]
  byName := Std.TreeMap.empty.insert mainChannel 0
  active := [0]
  charsWritten := text.length
  defaultCase := .none

namespace Writer

theorem edit_plain (text s : String) : (plain text).edit (.print s) = plain (text ++ s) := by
  unfold edit
  dsimp only
  split
  · rename_i hs
    have hs : s = "" := by simpa using hs
    rw [hs, String.append_empty]
  · have hprint : ({ Chain.new mainChannel .visible .none with current := text } : Chain).edit
        (.print s) = { Chain.new mainChannel .visible .none with current := text ++ s } := by
      simp [Chain.edit, Chain.print, Chain.new, Capitalizer.apply_of_none]
    have htargets : ∀ n, Writer.targets { plain text with charsWritten := n } = [0] := fun _ => rfl
    have hmodify : (plain text).chains.modify 0 (·.edit (.print s)) = (plain (text ++ s)).chains :=
      congrArg (fun chain => #[chain]) hprint
    rw [onTargets, htargets, List.foldl_cons, List.foldl_nil]
    change Writer.mk ((plain text).chains.modify 0 (·.edit (.print s))) (plain text).byName [0]
      (text.length + s.length) .none = _
    rw [hmodify, ← String.length_append]
    rfl

theorem mainText_plain (text : String) : (plain text).mainText = text := by
  simp [mainText, plain, Chain.render, Chain.new]

theorem channels_plain (text : String) :
    (plain text).channels = [⟨mainChannel, .visible, text⟩] := by
  simp [channels, plain, Chain.render, Chain.new]

end Writer

/-! ## Locals -/

namespace World

theorem getD_reserve (locals : Array Value) (i j : Nat) :
    (reserve locals i).getD j .undefined = locals.getD j .undefined := by
  rw [reserve, Array.getD_eq_getD_getElem?, Array.getD_eq_getD_getElem?, Array.getElem?_append]
  split
  · rfl
  · rename_i hj
    have hnone : locals[j]? = none := Array.getElem?_eq_none (by omega)
    rw [hnone, Array.getElem?_replicate]
    split <;> rfl

theorem getD_update (locals : Array Value) (i j : Nat) (v : Value) :
    (update locals i v).getD j .undefined = if j = i then v else locals.getD j .undefined := by
  have hsize : i < (reserve locals i).size := by
    rw [reserve, Array.size_append, Array.size_replicate]
    omega
  rw [update, Array.getD_eq_getD_getElem?, Array.getElem?_setIfInBounds]
  by_cases hj : j = i
  · rw [if_pos hj.symm, if_pos hsize, if_pos hj]
    rfl
  · rw [if_neg (fun h => hj h.symm), if_neg hj, ← Array.getD_eq_getD_getElem?, getD_reserve]

theorem getLocal_setLocal (w : World) (i j : Nat) (v : Value) :
    (w.setLocal i v).getLocal j = if j = i then v else w.getLocal j :=
  getD_update w.locals i j v

theorem swapLocals_eq (w : World) (a b : Nat) :
    ∃ locals, w.swapLocals a b = { w with locals := locals } ∧ ∀ j,
      locals.getD j .undefined =
        if j = a then w.getLocal b else if j = b then w.getLocal a else w.getLocal j := by
  refine ⟨_, by rw [swapLocals], fun j => ?_⟩
  rw [getD_update, getD_update, getD_reserve, getD_reserve]
  rfl

end World

/-! ## In step -/

/-- The state of one evaluation stands for that of the other; variables are locals by their names. -/
structure World.Shows (names : String → Option Nat) (w : World) (s : Scene) : Prop where
  out : w.out = .plain s.text
  rng : w.rng = s.rng
  format : w.numberFormat = .normal
  repeater : w.repeater = {}
  vars : ∀ name, s.vars name = (names name).elim .undefined w.getLocal

/-- Faults that come from limits of evaluation. -/
inductive Fault.Limits : Fault → Prop where
  | callStackOverflow (limit : Nat) : Limits (.callStackOverflow limit)
  | charLimitExceeded (limit : Nat) : Limits (.charLimitExceeded limit)

/-- Ends of evaluations: the first is that of the second, unless a limit ended it. -/
def Alike (names : String → Option Nat) :
    Except Fault (α × World) → Except Fault (α × Scene) → Prop
  | .ok (a, w), q => ∃ s, q = .ok (a, s) ∧ w.Shows names s
  | .error fault, q => fault.Limits ∨ q = .error fault

/-- What follows may use that it follows a result of the first evaluation, and may give the variables
other names. -/
theorem Alike.bind {inner names : String → Option Nat} {r : Except Fault (α × World)}
    {q : Except Fault (α × Scene)} {f : α × World → Except Fault (β × World)}
    {g : α × Scene → Except Fault (β × Scene)} (h : Alike inner r q)
    (hf : ∀ a w s, r = .ok (a, w) → w.Shows inner s → Alike names (f (a, w)) (g (a, s))) :
    Alike names (r >>= f) (q >>= g) := by
  cases r with
  | error fault => exact h.imp_right fun hq => by rw [hq]; rfl
  | ok p =>
    obtain ⟨s, rfl, hshows⟩ := h
    exact hf p.1 p.2 s rfl hshows

/-- The first evaluation ends as the second does, unless a limit ends it. -/
def Tracks (names : String → Option Nat) (x : Evaluating α) (y : Direct α) : Prop :=
  ∀ w s, w.Shows names s → Alike names (x w) (y s)

namespace Tracks

variable {names : String → Option Nat} {x : Evaluating α} {y : Direct α}
  {bodies : List (Evaluating Unit)} {run : Nat → Direct Unit} {weights : List (Evaluating Float)}

theorem pure (a : α) : Tracks names (Pure.pure a) (Pure.pure a) := fun _ s h => ⟨s, rfl, h⟩

theorem fail (fault : Fault) :
    Tracks names (Evaluating.fail fault : Evaluating α) (Direct.fail fault) := fun _ _ _ => .inr rfl

theorem bind {f : α → Evaluating β} {g : α → Direct β} (h : Tracks names x y)
    (hf : ∀ a, (∃ w w', x w = .ok (a, w')) → Tracks names (f a) (g a)) :
    Tracks names (x >>= f) (y >>= g) := fun w s hshows =>
  (h w s hshows).bind fun a w' s' hx hshows' => hf a ⟨w, w', hx⟩ w' s' hshows'

theorem seq {x' : Evaluating β} {y' : Direct β} (h : Tracks names x y) (h' : Tracks names x' y') :
    Tracks names (x >>= fun _ => x') (y >>= fun _ => y') := h.bind fun _ _ => h'

theorem update {f : World → World} {g : Scene → Scene}
    (h : ∀ w s, w.Shows names s → (f w).Shows names (g s)) :
    Tracks names (modify f) (modify g) := fun w s hshows => ⟨g s, rfl, h w s hshows⟩

/-! ### Printing -/

theorem print (options : Options) (captured : Bool) (text : String) :
    Tracks names (Evaluating.print options captured text) (Direct.print text) := by
  intro w s hshows
  have hprinted : ∀ n, ({ w with charsPrinted := n }.onWriter (·.edit (.print text))).Shows names
      { s with text := s.text ++ text } := fun n =>
    ⟨by rw [World.onWriter, hshows.out, Writer.edit_plain], hshows.rng, hshows.format,
      hshows.repeater, hshows.vars⟩
  unfold Evaluating.print
  cases captured with
  | true => exact ⟨_, rfl, hprinted w.charsPrinted⟩
  | false =>
    simp only [Bool.false_eq_true, if_false]
    cases options.charLimit with
    | none => exact ⟨_, rfl, hprinted _⟩
    | some limit =>
      dsimp only
      split
      · exact .inl (.charLimitExceeded limit)
      · exact ⟨_, rfl, hprinted _⟩

theorem printValue (options : Options) (captured : Bool) (v : Value) :
    Tracks names (Evaluating.printValue options captured v) (Direct.printValue v) := by
  intro w s hshows
  rw [Evaluating.printValue, hshows.format]
  exact print options captured (v.text .normal) w s hshows

/-- Both capture what is printed in between. -/
theorem capture {options : Options} (hcapitals : options.capitals = .none) {x : Evaluating Unit}
    {y : Direct Unit} (h : Tracks names x y) :
    Tracks names (Evaluating.capture options x) (Direct.capture y) := by
  intro w s hshows
  have hstart : World.Shows names { w with out := .new options.capitals } { s with text := "" } :=
    ⟨by rw [hcapitals]; rfl, hshows.rng, hshows.format, hshows.repeater, hshows.vars⟩
  refine (h _ _ hstart).bind fun _ w' s' _ hshows' => ?_
  have htext : w'.out.mainText = s'.text := by rw [hshows'.out, Writer.mainText_plain]
  exact ⟨{ s' with text := s.text }, by rw [htext]; rfl, hshows.out, hshows'.rng, hshows'.format,
    hshows'.repeater, hshows'.vars⟩

/-! ### Variables -/

theorem setLocal {i : Nat} {name : String} (hname : names name = some i)
    (hother : ∀ other, names other = some i → other = name) (v : Value) :
    Tracks names (modify (·.setLocal i v)) (Direct.setVar name v) := by
  refine update fun w s hshows => ⟨hshows.out, hshows.rng, hshows.format, hshows.repeater, ?_⟩
  intro other
  by_cases hsame : other = name
  · subst hsame
    simp [hname, World.getLocal_setLocal]
  · have hvar := hshows.vars other
    cases hslot : names other with
    | none => simpa [hsame, hslot] using hvar
    | some j =>
      have hne : j ≠ i := fun hj => hsame (hother other (hj ▸ hslot))
      simpa [hsame, hslot, World.getLocal_setLocal, hne] using hvar

theorem getLocal {i : Nat} {name : String} (hname : names name = some i) (options : Options)
    (captured : Bool) :
    Tracks names (fun w => Evaluating.printValue options captured (w.getLocal i) w)
      (do Direct.printValue (← Direct.getVar name)) := by
  intro w s hshows
  have hvar : s.vars name = w.getLocal i := by simpa [hname] using hshows.vars name
  have hprint := printValue options captured (s.vars name) w s hshows
  rw [hvar] at hprint
  change Alike names (Evaluating.printValue options captured (w.getLocal i) w)
    (Direct.printValue (s.vars name) s)
  rw [hvar]
  exact hprint

theorem swapLocals {i j : Nat} {a b : String} (ha : names a = some i) (hb : names b = some j)
    (hother : ∀ x y k, names x = some k → names y = some k → x = y) :
    Tracks names (modify (·.swapLocals i j)) (Direct.swapVars a b) := by
  apply update
  intro w s hshows
  obtain ⟨locals, hswap, hlocals⟩ := w.swapLocals_eq i j
  rw [hswap]
  refine ⟨hshows.out, hshows.rng, hshows.format, hshows.repeater, fun x => ?_⟩
  have hvara : s.vars a = w.getLocal i := by simpa [ha] using hshows.vars a
  have hvarb : s.vars b = w.getLocal j := by simpa [hb] using hshows.vars b
  have hget : ∀ k, ({ w with locals := locals } : World).getLocal k =
      if k = i then w.getLocal j else if k = j then w.getLocal i else w.getLocal k := hlocals
  by_cases hxa : x = a
  · subst hxa
    simp [ha, hget, hvarb]
  by_cases hxb : x = b
  · subst hxb
    have hji : j ≠ i := fun hji => hxa (hother x a i (hji ▸ hb) ha)
    simp [hb, hxa, hji, hget, hvara]
  have hvar := hshows.vars x
  cases hslot : names x with
  | none => simpa [hxa, hxb, hslot] using hvar
  | some k =>
    have hki : k ≠ i := fun hk => hxa (hother x a i (hk ▸ hslot) ha)
    have hkj : k ≠ j := fun hk => hxb (hother x b j (hk ▸ hslot) hb)
    simpa [hxa, hxb, hslot, hki, hkj, hget] using hvar

/-- An activation has variables of its own; behind it, the others are as before. -/
theorem activate {inner : String → Option Nat} {x : Evaluating Unit} {y : Direct Unit}
    (h : Tracks inner x y) :
    Tracks names
      (do
        let locals := (← get).locals
        modify fun w => { w with locals := #[] }
        x
        modify fun w => { w with locals })
      (Direct.activate y) := by
  intro w s hshows
  have hstart : World.Shows inner { w with locals := #[] }
      { s with vars := fun _ => .undefined } :=
    ⟨hshows.out, hshows.rng, hshows.format, hshows.repeater, fun name => by
      cases inner name <;> rfl⟩
  exact (h _ _ hstart).bind fun _ w' s' _ hshows' => ⟨{ s' with vars := s.vars }, rfl, hshows'.out,
    hshows'.rng, hshows'.format, hshows'.repeater, hshows.vars⟩

/-! ### Blocks -/

theorem length_of_mapM {xs : List (Evaluating α)} {as : List α} {w w' : World}
    (h : xs.mapM id w = .ok (as, w')) : as.length = xs.length := by
  induction xs generalizing as w with
  | nil =>
    cases h
    rfl
  | cons x xs ih =>
    rw [List.mapM_cons] at h
    change (x w >>= fun p => (xs.mapM id >>= fun as => Pure.pure (p.1 :: as)) p.2) = _ at h
    cases hx : x w with
    | error fault =>
      rw [hx] at h
      cases h
    | ok p =>
      rw [hx] at h
      change (xs.mapM id p.2 >>= fun q => .ok (p.1 :: q.1, q.2)) = _ at h
      cases hxs : xs.mapM id p.2 with
      | error fault =>
        rw [hxs] at h
        cases h
      | ok q =>
        rw [hxs] at h
        cases h
        rw [List.length_cons, List.length_cons, ih hxs]

/-- Both choose the same of the bodies. -/
theorem pick {weights : List Float} (hlength : weights.length = bodies.length) (hne : 0 < bodies.length)
    (hbodies : ∀ (i : Nat) (body : Evaluating Unit), bodies[i]? = some body → Tracks names body (run i)) :
    Tracks names (Evaluating.pick bodies weights) (do run (← Direct.choose weights)) := by
  intro w s hshows
  have hchoice : (w.rng.weightedChoice weights).1 < bodies.length := by
    rw [← hlength]
    exact w.rng.weightedChoice_lt (by omega)
  have hbody := List.getElem?_eq_getElem hchoice
  have hchosen : World.Shows names { w with rng := (w.rng.weightedChoice weights).2 }
      { s with rng := (s.rng.weightedChoice weights).2 } :=
    ⟨hshows.out, by rw [hshows.rng], hshows.format, hshows.repeater, hshows.vars⟩
  have hruns := hbodies _ _ hbody _ _ hchosen
  change Alike names (Evaluating.pick bodies weights w)
    (run (s.rng.weightedChoice weights).1 { s with rng := (s.rng.weightedChoice weights).2 })
  rw [Evaluating.pick_of_getElem? hbody, ← hshows.rng]
  rw [← hshows.rng] at hruns
  exact hruns

/-- Both choose by weights that are found first. -/
theorem choose {ws : Direct (List Float)} (hlength : weights.length = bodies.length)
    (hne : 0 < bodies.length) (hweights : Tracks names (weights.mapM id) ws)
    (hbodies : ∀ (i : Nat) (body : Evaluating Unit), bodies[i]? = some body → Tracks names body (run i)) :
    Tracks names (Evaluating.choose weights bodies)
      (do
        let weights ← ws
        run (← Direct.choose weights)) := by
  refine hweights.bind fun us ⟨w₁, w₂, hus⟩ => pick ?_ hne hbodies
  rw [length_of_mapM hus, hlength]

/-- A block without a repeater runs one of its bodies. -/
theorem block {options : Options} {captured : Bool} {ws : Direct (List Float)}
    (hlength : weights.length = bodies.length) (hne : 0 < bodies.length)
    (hweights : Tracks names (weights.mapM id) ws)
    (hbodies : ∀ (i : Nat) (body : Evaluating Unit), bodies[i]? = some body → Tracks names body (run i)) :
    Tracks names (Evaluating.block options captured weights bodies)
      (do
        let weights ← ws
        run (← Direct.choose weights)) := by
  intro w s hshows
  have hempty : bodies.isEmpty = false := by
    cases bodies with
    | nil => exact absurd hne (Nat.lt_irrefl 0)
    | cons _ _ => rfl
  have hblock : Evaluating.block options captured weights bodies w =
      Evaluating.choose weights bodies w := by
    have hsame : ({ w with repeater := {} } : World) = w := by rw [← hshows.repeater]
    change (if w.repeater.count.getD 1 = 0 || bodies.isEmpty then Pure.pure ()
      else Evaluating.repeatChoice options captured weights bodies w.repeater.separator
        (w.repeater.count.getD 1 - 1) : Evaluating Unit) { w with repeater := {} } = _
    rw [hsame, hshows.repeater, hempty]
    rfl
  rw [hblock]
  exact choose hlength hne hweights hbodies w s hshows

end Tracks

end Wordloom
