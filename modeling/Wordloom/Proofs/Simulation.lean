import Wordloom.Proofs.Blocks

/-!
# Wordloom.Proofs.Simulation

The machine does what code means. The proof follows the tree for code of one activation, and the
number of frames that are left for code that has an activation of its own.
-/

namespace Wordloom

variable {env : Environment} {α β : Type} {result : Except Fault (α × World)}
  {Q : α → World → Machine → Prop} {p : Program} {w w' : World} {c : Control} {m : Machine}
  {position : Nat} {t : Trace} {a : Activation} {depth : Nat} {lower : Option Runner}

/-! ## Operands -/

theorem Operands.length_of_run : ∀ (operands : Operands) {base : Nat} {w w' : World}
    {vs : List Value}, operands.run env lower a base w = .ok (vs, w') → vs.length = operands.length
  | .nil, base, w, w', vs, h => by
    rw [Operands.run] at h
    cases h
    rfl
  | .constant c next, base, w, w', vs, h => by
    rw [Operands.run, bind_eq_ok] at h
    obtain ⟨us, w₁, hnext, h⟩ := h
    cases h
    rw [List.length_cons, next.length_of_run hnext, Operands.length]
  | .capture numeric body next, base, w, w', vs, h => by
    rw [Operands.run, bind_eq_ok] at h
    obtain ⟨text, w₁, -, h⟩ := h
    rw [bind_eq_ok] at h
    obtain ⟨us, w₂, hnext, h⟩ := h
    cases h
    rw [List.length_cons, next.length_of_run hnext, Operands.length]
  | .pointer body next, base, w, w', vs, h => by
    rw [Operands.run, bind_eq_ok] at h
    obtain ⟨us, w₁, hnext, h⟩ := h
    cases h
    rw [List.length_cons, next.length_of_run hnext, Operands.length]

/-- What operands for the parameters of a function give is what it may be given. -/
theorem Operands.match_of_run {addresses : List Nat} : ∀ (operands : Operands)
    {kinds : List ParamKind} {base : Nat} {w w' : World} {vs : List Value},
    operands.Provides kinds → operands.run env lower a base w = .ok (vs, w') →
    (∀ n ∈ (operands.codes env lower a base).map (·.1), n ∈ addresses) →
    ParamKind.Match addresses kinds vs
  | .nil, kinds, base, w, w', vs, hkinds, h, _ => by
    rw [Operands.run] at h
    cases h
    cases kinds with
    | nil => trivial
    | cons kind kinds => cases kind <;> exact hkinds.elim
  | .constant c next, kinds, base, w, w', vs, hkinds, h, hmem => by
    rw [Operands.run, bind_eq_ok] at h
    obtain ⟨us, w₁, hnext, h⟩ := h
    cases h
    match kinds, hkinds with
    | .text :: rest, hkinds | .number :: rest, hkinds =>
      have hrest : ParamKind.Match addresses rest us :=
        next.match_of_run (show next.Provides rest from hkinds) hnext hmem
      exact hrest
  | .capture numeric body next, kinds, base, w, w', vs, hkinds, h, hmem => by
    rw [Operands.run, bind_eq_ok] at h
    obtain ⟨text, w₁, -, h⟩ := h
    rw [bind_eq_ok] at h
    obtain ⟨us, w₂, hnext, h⟩ := h
    cases h
    match kinds, hkinds with
    | .text :: rest, hkinds | .number :: rest, hkinds =>
      have hrest : ParamKind.Match addresses rest us :=
        next.match_of_run (show next.Provides rest from hkinds) hnext hmem
      exact hrest
  | .pointer body next, kinds, base, w, w', vs, hkinds, h, hmem => by
    rw [Operands.run, bind_eq_ok] at h
    obtain ⟨us, w₁, hnext, h⟩ := h
    cases h
    match kinds, hkinds with
    | .pattern :: rest, hkinds =>
      rw [Operands.codes, List.map_cons, List.forall_mem_cons] at hmem
      exact ⟨hmem.1, next.match_of_run hkinds hnext hmem.2⟩

/-- The code that operands point to is sound code of the program. -/
theorem Operands.pointed_of_mem_codes : ∀ (operands : Operands) {base : Nat},
    a.program.Has base (operands.lines base) → operands.Sound env.registry a.reach base →
    ∀ address y, (address, y) ∈ operands.codes env lower a base → Pointed env lower a address y
  | .nil, base, _, _, address, y, h => by
    rw [Operands.codes] at h
    cases h
  | .constant c next, base, hhas, hsound, address, y, h => by
    rw [Operands.Sound] at hsound
    rw [Operands.codes] at h
    exact next.pointed_of_mem_codes (Operands.has_constant hhas).2 hsound address y h
  | .capture numeric body next, base, hhas, hsound, address, y, h => by
    rw [Operands.Sound] at hsound
    rw [Operands.codes] at h
    exact next.pointed_of_mem_codes (Operands.has_capture hhas).2.2.2 hsound.2 address y h
  | .pointer body next, base, hhas, hsound, address, y, h => by
    obtain ⟨-, hbody, -, hnext⟩ := Operands.has_pointer hhas
    rw [Operands.Sound] at hsound
    rw [Operands.codes, List.mem_cons] at h
    obtain h | h := h
    · cases h
      exact ⟨body, rfl, hbody, hsound.1⟩
    · exact next.pointed_of_mem_codes hnext hsound.2 address y h

/-! ## Instructions with operands -/

theorem popArguments_of {vs : List Value} {n : Nat} (hfloor : c.frame.floor ≤ c.stack.size)
    (hn : n = vs.length) :
    Running.popArguments n (.of w (c.pushAll vs) position t) = .ok vs (.of w c position t) := by
  have hsplit : (Machine.of w (c.pushAll vs) position t).stack.splitAt
      ((Machine.of w (c.pushAll vs) position t).stack.size - n) = (vs, c.stack) := by
    subst hn
    simp [Machine.of, Control.pushAll, Stack.splitAt, Stack.size, Stack.truncate]
  rw [Running.popArguments, run_bind_of_ok (need_of hfloor hn), run_bind_of_ok (run_get _)]
  simp only [hsplit]
  rfl

/-- The value on top of the stack is made a number. -/
theorem Ends.toNumber {v : Value} {ls : List Line} (hm : m.At w (c.pushAll [v]) position)
    (hhas : p.Has position (.plain .toNumber :: ls)) (hprogram : c.frame.program = p)
    (hfloor : c.frame.floor ≤ c.stack.size)
    (h : ∀ m, m.At w (c.pushAll [v.toNumber]) (position + 1) → Ends env result Q m) :
    Ends env result Q m := by
  refine Ends.plain (do Running.push (← Running.pop).toNumber) hm hhas hprogram
    (by simp [Running.execute]) fun t => ?_
  rw [run_bind_of_ok (pop_one hfloor)]
  exact Goes.push h

/-- A constant operand is pushed. -/
theorem Constant.ends (k : Constant) (hm : m.At w c position) (hhas : p.Has position k.lines)
    (hprogram : c.frame.program = p) (hfloor : c.frame.floor ≤ c.stack.size)
    (h : ∀ m, m.At w (c.pushAll [k.value]) (position + Line.sizes k.lines) → Ends env result Q m) :
    Ends env result Q m := by
  cases k with
  | string s =>
    exact Ends.pushText hm hhas hprogram h
  | number bits =>
    exact Ends.plain (Running.push (.number (.ofBits bits))) hm hhas hprogram rfl fun t =>
      Goes.push h
  | spelled s =>
    exact Ends.pushText hm hhas hprogram fun m hm => Ends.toNumber hm hhas.tail hprogram hfloor h

/-- What follows captured text makes a value of it. -/
theorem Ends.finishCapture {numeric : Bool} {text : String}
    (hm : m.At w (c.pushAll [.string text]) (position + 1))
    (hhas : p.Has position (captureEnd numeric)) (hprogram : c.frame.program = p)
    (hfloor : c.frame.floor ≤ c.stack.size)
    (h : ∀ m, m.At w (c.pushAll [capturedValue numeric text])
      (position + Line.sizes (captureEnd numeric)) → Ends env result Q m) : Ends env result Q m := by
  cases numeric with
  | true =>
    have hvalue : capturedValue true text = (Value.string text).toNumber := if_pos rfl
    have hsize : position + Line.sizes (captureEnd true) = position + 1 + 1 := rfl
    rw [hvalue, hsize] at h
    exact Ends.toNumber hm hhas.tail_plain hprogram hfloor h
  | false =>
    have hvalue : capturedValue false text = .string text := if_neg (by decide)
    rw [hvalue] at h
    exact h m hm

/-! ## Calls -/

theorem call_apply (base : Nat) (code : Code) (w : World) :
    Evaluating.call env lower a base code w =
      (Evaluating.enter env lower a base code >>= fun _ w' => .ok ((), { w' with locals := w.locals }))
        { w with locals := #[] } := rfl

theorem Control.fits_call (hfits : c.Fits a) (w : World) (position : Nat) (target : Program)
    (code : Code) (vs : List Value) :
    (c.calling w position target vs).Fits ⟨target, code, vs, a.captured⟩ := by
  have hcalling : (c.calling w position target vs).Fits ⟨target, code, vs, c.outer.isSome⟩ :=
    Control.fits_calling w position target code vs
  rwa [hfits.captured] at hcalling

/-- A subroutine is called, and the frame goes on behind the call. -/
theorem Goes.call {d : Definition} {vs : List Value} {n : Nat} (hlower : Handles env depth lower)
    (hloaded : a.Loaded env.registry) (hfits : c.Fits a) (hdepth : c.remaining env.options = depth)
    (hwithin : d.Within env.registry a.reach a.program) (hn : n = vs.length)
    (harity : d.arity = vs.length) :
    Goes env (Running.call env.options d.address n (.of w (c.pushAll vs) position t))
      (Evaluating.call env lower { a with args := vs } d.address d.body w)
      (fun _ w' => Machine.At w' c position) := by
  cases hlower with
  | none =>
    have hcall : ∃ m, Running.call env.options d.address n (.of w (c.pushAll vs) position t) = _ :=
      call_of_zero hdepth hfits.floor hn d.address
    obtain ⟨m, hm⟩ := hcall
    rw [hm]
    exact .inr ⟨trivial, rfl⟩
  | some hrun =>
    rw [call_of_succ hdepth hfits.floor hn hfits.program, call_apply]
    have hreach : ({ a with args := vs } : Activation).reach = { a.reach with arity := d.arity } := by
      rw [harity]
      rfl
    have hsound := hwithin.sound
    rw [← hreach] at hsound
    have hbody := hrun (hloaded.withArgs vs) hwithin.has.left hsound
      (Control.fits_call hfits w position a.program a.code vs)
      (Control.remaining_calling hdepth w position a.program vs)
      (Machine.at_of { w with locals := #[] } _ d.address t)
    have hreturn := hwithin.has.right
    rw [Code.sizes_lines] at hreturn
    exact Ends.bind hbody fun _ w' m' _ hm' =>
      Ends.return_calling hm' hreturn fun m hm => Ends.here hm

/-- Another program is run, and the frame goes on behind the call. -/
theorem Goes.callProgram {index : UInt16} {target : Program} {code : Code}
    (hlower : Handles env depth lower) (hfits : c.Fits a) (hdepth : c.remaining env.options = depth)
    (hloaded : (⟨target, code, [], a.captured⟩ : Activation).Loaded env.registry)
    (htarget : a.program.reference? index = some target) :
    Goes env (Running.callProgram env.options index (.of w c position t))
      (Evaluating.call env lower ⟨target, code, [], a.captured⟩ 0 code w)
      (fun _ w' => Machine.At w' c position) := by
  cases hlower with
  | none =>
    have hcall : ∃ m, Running.callProgram env.options index (.of w c position t) = _ :=
      callProgram_of_zero hdepth hfits.program htarget
    obtain ⟨m, hm⟩ := hcall
    rw [hm]
    exact .inr ⟨trivial, rfl⟩
  | some hrun =>
    rw [callProgram_of_succ hdepth hfits.program htarget, call_apply]
    have hbody := hrun hloaded hloaded.reads.has hloaded.sound
      (Control.fits_call hfits w position target code [])
      (Control.remaining_calling hdepth w position target [])
      (Machine.at_of { w with locals := #[] } _ 0 t)
    have hend : 0 + code.size = target.code.size := by
      rw [hloaded.reads.size, Code.sizes_lines, Nat.zero_add]
    rw [hend] at hbody
    exact Ends.bind hbody fun _ w' m' _ hm' => Ends.end_calling hm' fun m hm => Ends.here hm

/-! ## Items -/

theorem HasBodies.cons {base : Nat} {body : Code} {weight : Weight} {y : Evaluating Unit}
    {items : List BlockItem} {bodies : List (Evaluating Unit)}
    (hhas : p.Has base (body.lines base ++ [.plain .blockEnd])) (hsmall : p.code.size < 2 ^ 31)
    (hy : ∀ w m, m.At w c base →
      Ends env (y w) (fun _ w' => Machine.At w' c (base + body.size)) m)
    (h : HasBodies env p c items bodies) :
    HasBodies env p c (⟨base.toUInt32, weight⟩ :: items) (y :: bodies) := by
  have hle := hhas.le_size
  have hbase : base.toUInt32.toNat = base := toNat_toUInt32 (by omega)
  have hend := hhas.right
  rw [Code.sizes_lines] at hend
  intro i item hitem
  cases i with
  | zero =>
    cases hitem
    refine ⟨by rw [hbase]; omega, y, rfl, base + body.size, hend, fun w m hm => ?_⟩
    rw [hbase] at hm
    exact hy w m hm
  | succ i => exact h i item hitem

/-! ## Trees -/

mutual

/-- The machine does what code means, if it does so for code one level deeper. -/
theorem Code.ends (hregistry : env.registry.Sound) (hlower : Handles env depth lower) :
    ∀ (code : Code) {a : Activation} {base : Nat} {c : Control} {w : World} {m : Machine},
      a.Loaded env.registry → a.program.Has base (code.lines base) →
      code.Sound env.registry a.reach base → c.Fits a → c.remaining env.options = depth →
      m.At w c base →
      Ends env (code.run env lower a base w) (fun _ w' => Machine.At w' c (base + code.size)) m
  | .nil, a, base, c, w, m, _, _, _, _, _, hm => by
    rw [Code.run]
    exact Ends.here hm
  | .act operands act next, a, base, c, w, m, hloaded, hhas, hsound, hfits, hdepth, hm => by
    obtain ⟨hoperands, hact, hnext⟩ := Code.has_act hhas
    rw [Code.Sound] at hsound
    rw [Code.run]
    simp only [Code.size, ← Nat.add_assoc]
    refine Ends.bind (operands.ends hregistry hlower hloaded hoperands hsound.1 hfits hdepth hm)
      fun vs w₁ m₁ hvs hm₁ => ?_
    refine Ends.bind (Act.ends act ((operands.length_of_run hvs).trans hsound.2.1) hsound.2.2.1
      hloaded.small hfits hact hm₁) fun _ w₂ m₂ _ hm₂ => ?_
    exact next.ends hregistry hlower hloaded hnext hsound.2.2.2 hfits hdepth hm₂
  | .ifThen operands test yes next, a, base, c, w, m, hloaded, hhas, hsound, hfits, hdepth, hm => by
    obtain ⟨hoperands, hjumps, hyes, hnext⟩ := Code.has_ifThen hhas
    rw [Code.Sound] at hsound
    rw [Code.run]
    simp only [Code.size, ← Nat.add_assoc]
    refine Ends.bind (operands.ends hregistry hlower hloaded hoperands hsound.1 hfits hdepth hm)
      fun vs w₁ m₁ hvs hm₁ => ?_
    obtain ⟨x, y, rfl⟩ := exists_pair ((operands.length_of_run hvs).trans hsound.2.1)
    refine Ends.branch hm₁ hjumps hfits.program hfits.floor hloaded.small
      (by have hle := hyes.le_size; omega) (by have hle := hnext.le_size; omega)
      (fun htest m₂ hm₂ => ?_) (fun htest m₂ hm₂ => ?_)
    · have hholds : test.holdsFor [x, y] = true := htest
      rw [if_pos hholds]
      refine Ends.bind (yes.ends hregistry hlower hloaded hyes hsound.2.2.1 hfits hdepth hm₂)
        fun _ w₃ m₃ _ hm₃ => ?_
      exact next.ends hregistry hlower hloaded hnext hsound.2.2.2 hfits hdepth hm₃
    · have hfails : ¬ test.holdsFor [x, y] = true := htest
      rw [if_neg hfails]
      exact next.ends hregistry hlower hloaded hnext hsound.2.2.2 hfits hdepth hm₂
  | .ifElse operands test yes no next, a, base, c, w, m, hloaded, hhas, hsound, hfits, hdepth,
      hm => by
    obtain ⟨hoperands, hjumps, hyes, hjump, hno, hnext⟩ := Code.has_ifElse hhas
    rw [Code.Sound] at hsound
    have hend : base + operands.size + 11 + yes.size + 5 + no.size ≤ a.program.code.size := by
      have hle := hnext.le_size
      omega
    rw [Code.run]
    simp only [Code.size, ← Nat.add_assoc]
    refine Ends.bind (operands.ends hregistry hlower hloaded hoperands hsound.1 hfits hdepth hm)
      fun vs w₁ m₁ hvs hm₁ => ?_
    obtain ⟨x, y, rfl⟩ := exists_pair ((operands.length_of_run hvs).trans hsound.2.1)
    refine Ends.branch hm₁ hjumps hfits.program hfits.floor hloaded.small (by omega) (by omega)
      (fun htest m₂ hm₂ => ?_) (fun htest m₂ hm₂ => ?_)
    · have hholds : test.holdsFor [x, y] = true := htest
      rw [if_pos hholds]
      refine Ends.bind (yes.ends hregistry hlower hloaded hyes hsound.2.2.1 hfits hdepth hm₂)
        fun _ w₃ m₃ _ hm₃ => ?_
      exact Ends.jump hm₃ hjump hfits.program hloaded.small hend fun m₄ hm₄ =>
        next.ends hregistry hlower hloaded hnext hsound.2.2.2.2 hfits hdepth hm₄
    · have hfails : ¬ test.holdsFor [x, y] = true := htest
      rw [if_neg hfails]
      refine Ends.bind (no.ends hregistry hlower hloaded hno hsound.2.2.2.1 hfits hdepth hm₂)
        fun _ w₃ m₃ _ hm₃ => ?_
      exact next.ends hregistry hlower hloaded hnext hsound.2.2.2.2 hfits hdepth hm₃
  | .block index choices next, a, base, c, w, m, hloaded, hhas, hsound, hfits, hdepth, hm => by
    obtain ⟨hblock, hchoices, hnext⟩ := Code.has_block hhas
    rw [Code.Sound] at hsound
    obtain ⟨⟨hindex, hne, htable⟩, hsoundChoices, hsoundNext⟩ := hsound
    have hsmall : a.program.code.size < 2 ^ 31 := hloaded.small
    have hle := hnext.le_size
    have hend : (base + 5 + choices.size).toUInt32.toNat = base + 5 + choices.size :=
      toNat_toUInt32 (by omega)
    rw [Code.run]
    simp only [Code.size, ← Nat.add_assoc]
    have hruns : Ends env (Evaluating.block env.options a.captured
        (choices.weights env lower a (base + 5)) (choices.bodies env lower a (base + 5)) w)
        (fun _ w' => Machine.At w' c (base + 5 + choices.size)) m := by
      rw [← hend]
      refine Ends.plain (Running.startBlock env (Int32.ofNat index)) hm hblock hfits.program rfl
        fun t => ?_
      exact Goes.startBlock hlower hloaded hfits hdepth hchoices hsoundChoices hne (by omega)
        (fun active => choices.hasBodies hregistry hlower hloaded hchoices hsoundChoices
          (hfits.inBlock active) hdepth)
        ((choices.length_bodies _).trans (choices.length_entries _).symm) (by omega) htable w t
    exact Ends.bind hruns fun _ w₁ m₁ _ hm₁ =>
      next.ends hregistry hlower hloaded hnext hsoundNext hfits hdepth hm₁
  | .define arity body next, a, base, c, w, m, hloaded, hhas, hsound, hfits, hdepth, hm => by
    obtain ⟨hjump, -, hnext⟩ := Code.has_define hhas
    rw [Code.Sound] at hsound
    rw [Code.run]
    simp only [Code.size, ← Nat.add_assoc]
    exact Ends.jump hm hjump hfits.program hloaded.small (by have hle := hnext.le_size; omega)
      fun m₁ hm₁ => next.ends hregistry hlower hloaded hnext hsound.2 hfits hdepth hm₁
  | .call operands address count next, a, base, c, w, m, hloaded, hhas, hsound, hfits, hdepth,
      hm => by
    obtain ⟨hoperands, hcall, hnext⟩ := Code.has_call hhas
    rw [Code.Sound] at hsound
    obtain ⟨hsoundOperands, hlength, hknown, hsoundNext⟩ := hsound
    obtain ⟨d, hd, rfl, harity, hwithin⟩ := hloaded.definition? hknown
    have haddress : d.address ≤ a.program.code.size := by
      have hle := hwithin.has.le_size
      omega
    rw [Code.run]
    simp only [Code.size, ← Nat.add_assoc]
    refine Ends.bind (operands.ends hregistry hlower hloaded hoperands hsoundOperands hfits hdepth
      hm) fun vs w₁ m₁ hvs hm₁ => ?_
    have hcount : count.toNat = vs.length := by rw [operands.length_of_run hvs, hlength]
    simp only [hd]
    have hruns : Ends env (Evaluating.call env lower { a with args := vs } d.address d.body w₁)
        (fun _ w' => Machine.At w' c (base + operands.size + 6)) m₁ := by
      refine Ends.plain
        (do let offset ← Running.address (Int32.ofNat d.address)
            Running.call env.options offset count.toNat)
        hm₁ hcall hfits.program (by simp [Running.execute]) fun t => ?_
      have haddressed : Running.address (Int32.ofNat d.address)
          (.of w₁ (c.pushAll vs) (base + operands.size + 6) t) = _ :=
        address_of hfits.program hloaded.small haddress
      refine Eq.mpr (congrArg (Goes env · _ _) (run_bind_of_ok haddressed)) ?_
      exact Goes.call hlower hloaded hfits hdepth hwithin hcount (harity.trans hcount)
    exact Ends.bind hruns fun _ w₂ m₂ _ hm₂ =>
      next.ends hregistry hlower hloaded hnext hsoundNext hfits hdepth hm₂
  | .native operands id count next, a, base, c, w, m, hloaded, hhas, hsound, hfits, hdepth,
      hm => by
    obtain ⟨hoperands, hcall, hnext⟩ := Code.has_native hhas
    rw [Code.Sound] at hsound
    obtain ⟨hsoundOperands, hlibrary, hsoundNext⟩ := hsound
    obtain ⟨hlength, f, hf, hprovides⟩ := hlibrary _ rfl
    rw [Code.run]
    simp only [Code.size, ← Nat.add_assoc]
    refine Ends.bind (operands.ends hregistry hlower hloaded hoperands hsoundOperands hfits hdepth
      hm) fun vs w₁ m₁ hvs hm₁ => ?_
    have hcount : count.toNat = vs.length := by rw [operands.length_of_run hvs, hlength]
    have hsafe := hregistry id.toNat f hf _ vs
      (operands.match_of_run hprovides hvs fun _ hn => hn)
    simp only [hf]
    have hruns : Ends env ((f.routine vs).run env a.captured (operands.codes env lower a base) w₁)
        (fun _ w' => Machine.At w' c (base + operands.size + 4)) m₁ := by
      refine Ends.plain (Running.nativeCall env id count) hm₁ hcall hfits.program rfl fun t => ?_
      have hargs : Running.popArguments count.toNat
          (.of w₁ (c.pushAll vs) (base + operands.size + 4) t) = _ :=
        popArguments_of hfits.floor hcount
      rw [Running.nativeCall, hf, Running.entry, run_bind_of_ok (run_pure _ _)]
      refine Eq.mpr (congrArg (Goes env · _ _) (run_bind_of_ok hargs)) ?_
      exact Goes.routine hlower hloaded hfits hdepth
        (operands.pointed_of_mem_codes hoperands hsoundOperands)
        (fun w' t' => Machine.at_of w' c _ t') _ hsafe w₁ t
    exact Ends.bind hruns fun _ w₂ m₂ _ hm₂ =>
      next.ends hregistry hlower hloaded hnext hsoundNext hfits hdepth hm₂
  | .program index target code next, a, base, c, w, m, hloaded, hhas, hsound, hfits, hdepth,
      hm => by
    obtain ⟨hcall, hnext⟩ := Code.has_program hhas
    rw [Code.Sound] at hsound
    obtain ⟨⟨hlt, htarget⟩, hlibrary, hsoundNext⟩ := hsound
    obtain ⟨hreads, hsmall, hsoundCode⟩ := hlibrary rfl
    have hreference : a.program.reference? index.toUInt16 = some target := by
      have hlist : a.program.references[index]? = some target := by
        simpa [Activation.reach, Program.tables] using htarget
      have hindex : index.toUInt16.toNat = index := Nat.mod_eq_of_lt hlt
      rw [Program.reference?, hindex, hlist]
    rw [Code.run]
    simp only [Code.size, ← Nat.add_assoc]
    have hruns : Ends env (Evaluating.call env lower ⟨target, code, [], a.captured⟩ 0 code w)
        (fun _ w' => Machine.At w' c (base + 3)) m :=
      Ends.plain (Running.callProgram env.options index.toUInt16) hm hcall hfits.program rfl
        fun t => Goes.callProgram hlower hfits hdepth ⟨hreads, hsmall, hsoundCode⟩ hreference
    exact Ends.bind hruns fun _ w₁ m₁ _ hm₁ =>
      next.ends hregistry hlower hloaded hnext hsoundNext hfits hdepth hm₁

/-- Operands leave their values on the stack. -/
theorem Operands.ends (hregistry : env.registry.Sound) (hlower : Handles env depth lower) :
    ∀ (operands : Operands) {a : Activation} {base : Nat} {c : Control} {w : World} {m : Machine},
      a.Loaded env.registry → a.program.Has base (operands.lines base) →
      operands.Sound env.registry a.reach base → c.Fits a → c.remaining env.options = depth →
      m.At w c base →
      Ends env (operands.run env lower a base w)
        (fun vs w' => Machine.At w' (c.pushAll vs) (base + operands.size)) m
  | .nil, a, base, c, w, m, _, _, _, _, _, hm => by
    rw [Operands.run]
    refine Ends.here ?_
    rw [Control.pushAll_nil]
    exact hm
  | .constant k next, a, base, c, w, m, hloaded, hhas, hsound, hfits, hdepth, hm => by
    obtain ⟨hconstant, hnext⟩ := Operands.has_constant hhas
    rw [Operands.Sound] at hsound
    rw [Operands.run]
    refine Constant.ends k hm hconstant hfits.program hfits.floor fun m₁ hm₁ => ?_
    refine Ends.bind (next.ends hregistry hlower hloaded hnext hsound (hfits.pushAll _) hdepth hm₁)
      fun vs w₂ m₂ _ hm₂ => Ends.here ?_
    rw [← Control.pushAll_append, Nat.add_assoc] at hm₂
    exact hm₂
  | .capture numeric body next, a, base, c, w, m, hloaded, hhas, hsound, hfits, hdepth, hm => by
    obtain ⟨hopen, hbody, hclose, hnext⟩ := Operands.has_capture hhas
    rw [Operands.Sound] at hsound
    rw [Operands.run]
    simp only [Operands.size, ← Nat.add_assoc]
    obtain ⟨ls, hls⟩ : ∃ ls, captureEnd numeric = .plain .returnOutput :: ls := by
      cases numeric <;> exact ⟨_, rfl⟩
    refine Ends.bind (Ends.capture hm hopen (hls ▸ hclose) hfits.program fun w' m' hm' =>
      body.ends hregistry hlower (hloaded.captured true) hbody hsound.1 (hfits.capturing w) hdepth
        hm') fun text w₁ m₁ _ hm₁ => ?_
    refine Ends.finishCapture hm₁ hclose hfits.program hfits.floor fun m₂ hm₂ => ?_
    refine Ends.bind (next.ends hregistry hlower hloaded hnext hsound.2 (hfits.pushAll _) hdepth hm₂)
      fun vs w₃ m₃ _ hm₃ => Ends.here ?_
    rw [← Control.pushAll_append] at hm₃
    exact hm₃
  | .pointer body next, a, base, c, w, m, hloaded, hhas, hsound, hfits, hdepth, hm => by
    obtain ⟨hjump, -, hpush, hnext⟩ := Operands.has_pointer hhas
    rw [Operands.Sound] at hsound
    have hle := hnext.le_size
    rw [Operands.run]
    simp only [Operands.size, ← Nat.add_assoc]
    refine Ends.jump hm hjump hfits.program hloaded.small (by omega) fun m₁ hm₁ => ?_
    refine Ends.plain (do Running.push (.pointer (← Running.address (Int32.ofNat (base + 5)))))
      hm₁ hpush hfits.program (by simp [Running.execute]) fun t => ?_
    have haddressed : Running.address (Int32.ofNat (base + 5))
        (.of w c (base + 5 + body.size + 1 + 5) t) = _ :=
      address_of hfits.program hloaded.small (by omega)
    refine Eq.mpr (congrArg (Goes env · _ _) (run_bind_of_ok haddressed)) ?_
    refine Goes.push fun m₂ hm₂ => ?_
    refine Ends.bind (next.ends hregistry hlower hloaded hnext hsound.2 (hfits.pushAll _) hdepth hm₂)
      fun vs w₃ m₃ _ hm₃ => Ends.here ?_
    rw [← Control.pushAll_append] at hm₃
    exact hm₃

/-- The items of a block do what their bodies mean. -/
theorem Choices.hasBodies (hregistry : env.registry.Sound) (hlower : Handles env depth lower) :
    ∀ (choices : Choices) {a : Activation} {base : Nat} {c : Control},
      a.Loaded env.registry → a.program.Has base (choices.lines base) →
      choices.Sound env.registry a.reach base → c.Fits a → c.remaining env.options = depth →
      HasBodies env a.program c (choices.entries base) (choices.bodies env lower a base)
  | .nil, a, base, c, _, _, _, _, _ => by
    intro i item hitem
    rw [Choices.entries] at hitem
    cases hitem
  | .item weight body next, a, base, c, hloaded, hhas, hsound, hfits, hdepth => by
    obtain ⟨hbody, hnext⟩ := Choices.has_item hhas
    rw [Choices.Sound] at hsound
    rw [Choices.entries, Choices.bodies]
    exact HasBodies.cons hbody hloaded.small
      (fun w m hm => body.ends hregistry hlower hloaded hbody.left hsound.1 hfits hdepth hm)
      (next.hasBodies hregistry hlower hloaded hnext hsound.2 hfits hdepth)
  | .weighted weight body next, a, base, c, hloaded, hhas, hsound, hfits, hdepth => by
    obtain ⟨-, -, hbody, hnext⟩ := Choices.has_weighted hhas
    rw [Choices.Sound] at hsound
    rw [Choices.entries, Choices.bodies]
    exact HasBodies.cons hbody hloaded.small
      (fun w m hm => body.ends hregistry hlower hloaded hbody.left hsound.2.1 hfits hdepth hm)
      (next.hasBodies hregistry hlower hloaded hnext hsound.2.2 hfits hdepth)

end

/-- The machine does what code means, with so many more frames to go. -/
theorem Code.faithful_runner (hregistry : env.registry.Sound) :
    ∀ depth, (Code.runner env depth).Faithful env depth
  | 0 => fun _ _ code hloaded hhas hsound _ _ _ hfits hdepth hm =>
    code.ends hregistry .none hloaded hhas hsound hfits hdepth hm
  | depth + 1 => fun _ _ code hloaded hhas hsound _ _ _ hfits hdepth hm =>
    code.ends hregistry (.some (Code.faithful_runner hregistry depth)) hloaded hhas hsound hfits
      hdepth hm

end Wordloom
