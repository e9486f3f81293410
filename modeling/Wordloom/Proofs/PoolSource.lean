import Wordloom.Machine.Standard
import Wordloom.Proofs.Compiled
import Wordloom.Proofs.Joining
import Wordloom.Proofs.Readings
import Wordloom.Proofs.Traversal

/-!
# Wordloom.Proofs.PoolSource

The program of a source that is nothing but a call of `pool`. Whatever the pattern in it is, the call
ends where the source ends, and the code of the pattern is jumped over until the function asks for it.
-/

namespace Wordloom

/-! ## The source -/

/-- The source that runs a pattern with the random numbers that a key has in a pool. -/
def poolCall (name key pattern : String) : String :=
  "[pool:" ++ name ++ ";" ++ key ++ ";" ++ pattern ++ "]"

/-- The function `pool` is the standard one, and its number is one that a call can hold. -/
def Registry.HasPool (r : Registry) (id : Nat) : Prop :=
  r.lookup? "pool" = some (id, ⟨"pool", [.text, .text, .pattern], Standard.pool⟩) ∧ id < 2 ^ 16

variable {id : Nat} {key name : String}

namespace Token

/-- Sources that stand for their own text: literals, and tokens that mean nothing but themselves. -/
def IsConstant (source : String) : Prop := ∀ t ∈ scan source, t.isConstant = true

/-- Sources that close the brackets that they open, and no others. -/
def IsBalanced (source : String) : Prop := nest 0 (scan source) = some 0

instance (source : String) : Decidable (IsConstant source) := inferInstanceAs (Decidable (∀ _ ∈ _, _))

instance (source : String) : Decidable (IsBalanced source) := inferInstanceAs (Decidable (_ = _))

theorem nest_congr {ts us : List Token} (h : ts.map (·.kind) = us.map (·.kind)) (n : Nat) :
    nest n ts = nest n us := by
  induction ts generalizing us n with
  | nil =>
    rw [List.map_nil, eq_comm, List.map_eq_nil_iff] at h
    rw [h]
  | cons t ts ih =>
    obtain ⟨u, us, rfl, hu, hus⟩ := List.map_eq_cons_iff.1 h.symm
    rw [nest_cons, nest_cons, hu]
    congr 1
    funext k
    exact ih hus.symm k

theorem not_broken_of_nest {ts : List Token} {n n' : Nat} (h : nest n ts = some n') :
    ∀ t ∈ ts, t.kind ≠ .broken := by
  induction ts generalizing n with
  | nil => nofun
  | cons t ts ih =>
    rw [nest_cons] at h
    obtain ⟨k, ht, hts⟩ := Option.bind_eq_some_iff.1 h
    intro u hu
    obtain rfl | hu := List.mem_cons.1 hu
    · intro hbroken
      rw [hbroken] at ht
      cases ht
    · exact ih hts u hu

theorem not_broken_of_isConstant {t : Token} (h : t.isConstant = true) : t.kind ≠ .broken := by
  intro hbroken
  rw [isConstant, hbroken] at h
  cases h

/-- Constant sources are so wherever they stand. -/
theorem IsConstant.scanFrom {source : String} (h : IsConstant source) (p : Position) :
    ∀ t ∈ scanFrom p source.toList, t.isConstant = true := by
  have hmap := map_scanFrom (fun kind _ => decide (kind = .literal) || kind.isPlain) p .start
    source.toList
  intro t ht
  have hmem : t.isConstant ∈ (Token.scanFrom p source.toList).map (·.isConstant) :=
    List.mem_map_of_mem ht
  obtain ⟨u, hu, heq⟩ := List.mem_map.1 (hmap ▸ hmem)
  exact heq ▸ h u hu

/-- Balanced sources are so wherever they stand. -/
theorem IsBalanced.scanFrom {source : String} (h : IsBalanced source) (p : Position) :
    nest 0 (scanFrom p source.toList) = some 0 :=
  (nest_congr (map_scanFrom (fun kind _ => kind) p .start source.toList) 0).trans h

/-- The tokens of a call of `pool`. -/
inductive PoolTokens : List Token → Prop where
  | intro {opening function colon first second closing : Token} {name key body : List Token}
    (hopening : opening.kind = .leftSquare) (hfunction : function.kind = .text)
    (htext : function.text = "pool") (hcolon : colon.kind = .colon)
    (hname : ∀ t ∈ name, t.isConstant = true) (hfirst : first.kind = .semicolon)
    (hkey : ∀ t ∈ key, t.isConstant = true) (hsecond : second.kind = .semicolon)
    (hbody : nest 0 body = some 0) (hclosing : closing.kind = .rightSquare) :
    PoolTokens (opening :: function :: colon ::
      (name ++ first :: (key ++ second :: (body ++ [closing]))))

theorem scanFrom_function (p : Position) (cs : List Char) :
    scanFrom p ("[pool:".toList ++ cs) =
      ⟨.leftSquare, "[", p⟩ :: ⟨.text, "pool", p.after ['[']⟩ ::
        scanFrom ((p.after ['[']).after "pool".toList) (':' :: cs) := by
  have hname : cut 'p' ('o' :: 'o' :: 'l' :: ':' :: cs) = ⟨.text, ['o', 'o', 'l'], ':' :: cs⟩ := rfl
  change scanFrom p ('[' :: 'p' :: 'o' :: 'o' :: 'l' :: ':' :: cs) = _
  rw [scanFrom, show cut '[' _ = ⟨.leftSquare, [], 'p' :: 'o' :: 'o' :: 'l' :: ':' :: cs⟩ from rfl,
    scanFrom, hname]
  rfl

theorem scanFrom_semicolon (p : Position) (cs : List Char) :
    scanFrom p (';' :: cs) = ⟨.semicolon, ";", p⟩ :: scanFrom (p.after [';']) cs := by
  rw [scanFrom, show cut ';' cs = ⟨.semicolon, [], cs⟩ from rfl]

theorem scanFrom_bracket (p : Position) : scanFrom p [']'] = [⟨.rightSquare, "]", p⟩] := by
  rw [scanFrom, show cut ']' [] = ⟨.rightSquare, [], []⟩ from rfl, scanFrom]

theorem toList_poolCall (name key pattern : String) :
    (poolCall name key pattern).toList =
      "[pool:".toList ++ (name.toList ++ ';' :: (key.toList ++ ';' :: (pattern.toList ++ [']']))) := by
  simp [poolCall]

/-- What a call of `pool` consists of. A name that begins with a colon makes the one before it another
token. -/
theorem scan_poolCall {pattern : String} (hname : IsConstant name) (hkey : IsConstant key)
    (hpattern : IsBalanced pattern) :
    PoolTokens (scan (poolCall name key pattern)) ∨
      ∃ opening function colons rest, scan (poolCall name key pattern) =
        opening :: function :: colons :: rest ∧ opening.kind = .leftSquare ∧
          function.kind = .text ∧ function.text = "pool" ∧ colons.kind = .doubleColon := by
  unfold scan
  rw [toList_poolCall, scanFrom_function]
  generalize (Position.start.after ['[']).after "pool".toList = p
  by_cases hcolon : name.toList.head? = some ':'
  · obtain ⟨cs, hcs⟩ := List.head?_eq_some_iff.1 hcolon
    rw [hcs, List.cons_append, scanFrom]
    exact .inr ⟨_, _, _, _, rfl, rfl, rfl, rfl, rfl⟩
  · left
    have hhead : (name.toList ++ ';' :: (key.toList ++ ';' :: (pattern.toList ++ [']']))).head? ≠
        some ':' := by
      cases hcs : name.toList with
      | nil => simp
      | cons c cs => simpa [hcs] using hcolon
    rw [scanFrom, cut_colon hhead,
      scanFrom_stop rfl _ _ _ fun t ht => not_broken_of_isConstant (hname.scanFrom _ t ht),
      scanFrom_semicolon,
      scanFrom_stop rfl _ _ _ fun t ht => not_broken_of_isConstant (hkey.scanFrom _ t ht),
      scanFrom_semicolon,
      scanFrom_stop rfl _ _ _ (not_broken_of_nest (hpattern.scanFrom _)), scanFrom_bracket]
    exact .intro rfl rfl rfl rfl (hname.scanFrom _) rfl (hkey.scanFrom _) rfl (hpattern.scanFrom _) rfl

end Token

namespace Compile

variable {ctx : Context} {c c₁ c' : Compilation} {k self child : Construct} {ts : List Token}
  {function : Token}

/-! ## Its compilation -/

theorem Completes.of_done (h : Completes ctx k c c') (hk : k.resume ctx c = .ok .done c₁) : c' = c₁ := by
  cases h with
  | done h => exact (EStateM.Result.ok.inj (h.symm.trans hk)).2
  | push h => cases h.symm.trans hk

theorem Completes.of_push (h : Completes ctx k c c') (hk : k.resume ctx c = .ok (.push self child) c₁) :
    ∃ c₂, Completes ctx child c₁ c₂ ∧ Completes ctx self c₂ c' := by
  cases h with
  | done h => cases h.symm.trans hk
  | push h hchild hself =>
    obtain ⟨⟨⟩, rfl⟩ := EStateM.Result.ok.inj (h.symm.trans hk)
    exact ⟨_, hchild, hself⟩

theorem Completes.of_error {e : Error} (h : Completes ctx k c c') (hk : k.resume ctx c = .error e c₁) :
    False := by
  cases h with
  | done h => cases h.symm.trans hk
  | push h => cases h.symm.trans hk

/-- The tag of a call of `pool`. -/
def poolTag (id : Nat) : Tag := ⟨"pool", .native id [.text, .text, .pattern], 3, 3⟩

open Compiling

theorem resume_root {opening : Token} (h : c.reader.rest = opening :: ts)
    (hopening : opening.kind = .leftSquare) :
    Construct.resume ctx (.pattern .root) c =
      .ok (.push (.pattern .root) (.tag opening.position))
        { c.past opening ts with out := c.out.mark opening.position } := by
  change pattern .root c.reader.rest c = _
  rw [h, pattern, if_neg (by simp [Terminator.endsAt]), run_bind_of_ok (read_of_rest h), hopening]
  rfl

theorem resolve_pool (hpool : ctx.registry.HasPool id) (h : c.reader.rest = function :: ts)
    (hfunction : function.kind = .text) (htext : function.text = "pool") (start : Position) :
    Tag.resolve ctx start c = .ok (poolTag id) (c.past function ts) := by
  have hintrinsic : Tag.intrinsic? "pool" = none := rfl
  unfold Tag.resolve
  rw [run_bind_of_ok (readLoose_of_rest h (by rw [hfunction]; nofun)), hfunction]
  simp only [htext, hintrinsic, hpool.1]
  rfl

/-- What has been emitted of a call when its pattern begins. -/
def poolFront (e : Emitter) (name key : String) : Emitter :=
  (e.emitString .push name).emitString .push key

/-- The tag of a call of `pool` whose pattern is being compiled. -/
def openPool (id : Nat) (start : Position) : OpenTag := { tag := poolTag id, start, index := 2 }

theorem resume_tag (hpool : ctx.registry.HasPool id) {colon first second : Token}
    {name key rest : List Token} (hfunction : function.kind = .text)
    (htext : function.text = "pool") (hcolon : colon.kind = .colon)
    (hname : ∀ t ∈ name, t.isConstant = true) (hfirst : first.kind = .semicolon)
    (hkey : ∀ t ∈ key, t.isConstant = true) (hsecond : second.kind = .semicolon) (start : Position)
    (h : c.reader.rest = function :: colon :: (name ++ first :: (key ++ second :: rest)))
    {front : Emitter} (hfront : front = poolFront c.out (String.join (name.map (·.value)))
      (String.join (key.map (·.value)))) :
    Construct.resume ctx (.tag start) c =
      .ok (.push (.argument (openPool id start)
          (.outOfLine front.position (front.emit (.jump 0)).position)) (.pattern .argument))
        { c with
          reader := { c.reader with rest := rest, last := second.position }
          out := front.emit (.jump 0) } := by
  change Tag.start ctx start c = _
  subst hfront
  unfold Tag.start
  rw [run_bind_of_ok (resolve_pool hpool h hfunction htext start), run_bind_of_ok (run_tokens _),
    run_bind_of_ok (takeLoose_of_rest rfl hcolon nofun), if_pos rfl]
  -- a token for each argument
  obtain ⟨u, v, tokens, htokens⟩ : ∃ u v tokens,
      name ++ first :: (key ++ second :: rest) = u :: v :: tokens := by
    rcases name with _ | ⟨u, _ | ⟨v, name⟩⟩
    · rcases key with _ | ⟨v, key⟩ <;> exact ⟨_, _, _, rfl⟩
    · exact ⟨_, _, _, rfl⟩
    · exact ⟨_, _, _, rfl⟩
  change OpenTag.arguments ctx { tag := poolTag id, start }
    (colon :: (name ++ first :: (key ++ second :: rest))) _ = _
  rw [OpenTag.arguments_of_constant (by decide : 0 < 3) rfl rfl rfl hname hfirst, htokens,
    OpenTag.arguments_of_constant (by decide : 1 < 3) rfl rfl rfl hkey hsecond]
  rfl

/-- What is emitted behind the pattern. -/
def poolEnd (e : Emitter) (id skip start : Nat) : Emitter :=
  (((e.emit .return).patchHere skip).emit (.pushAddress (Int32.ofNat start))).emit
    (.nativeCall id.toUInt16 3)

theorem afterArgument_outOfLine (skip body : Nat) (c : Compilation) :
    OpenTag.afterArgument (.outOfLine skip body) c = .ok () { c with
      out := ((c.out.emit .return).patchHere skip).emit (.pushAddress (Int32.ofNat body)) } := rfl

theorem resume_argument {skip body : Nat} {start : Position} {sep : Token} {us : List Token}
    (h : c.reader.rest = sep :: us) (hsep : sep.kind = .rightSquare) :
    Construct.resume ctx (.argument (openPool id start) (.outOfLine skip body)) c =
      .ok .done { c.past sep us with out := poolEnd c.out id skip body } := by
  have hrest : ({ c with
      out := ((c.out.emit .return).patchHere skip).emit (.pushAddress (Int32.ofNat body)) } :
      Compilation).reader.rest = sep :: us := h
  change (OpenTag.afterArgument (.outOfLine skip body) >>= _) c = _
  rw [run_bind_of_ok (afterArgument_outOfLine skip body c), run_bind_of_ok (run_tokens _), run_bind,
    OpenTag.endArgument_of_bracket rfl hrest hsep]
  rfl

/-- There is no room for a fourth argument. -/
theorem resume_argument_of_semicolon {skip body : Nat} {start : Position} {sep : Token}
    {us : List Token} (h : c.reader.rest = sep :: us) (hsep : sep.kind = .semicolon) :
    ∃ e c', Construct.resume ctx (.argument (openPool id start) (.outOfLine skip body)) c =
      .error e c' := by
  refine ⟨⟨start, .argumentCount "pool" (poolTag id).arity 4⟩, { c.past sep us with
    out := ((c.out.emit .return).patchHere skip).emit (.pushAddress (Int32.ofNat body)) }, ?_⟩
  have hrest : ({ c with
      out := ((c.out.emit .return).patchHere skip).emit (.pushAddress (Int32.ofNat body)) } :
      Compilation).reader.rest = sep :: us := h
  change (OpenTag.afterArgument (.outOfLine skip body) >>= _) c = _
  rw [run_bind_of_ok (afterArgument_outOfLine skip body c), run_bind_of_ok (run_tokens _),
    run_bind_of_ok (OpenTag.endArgument_of_semicolon rfl hrest hsep)]
  change OpenTag.arguments ctx _ c.reader.rest _ = _
  rw [h]
  rfl

theorem resume_tag_of_doubleColon (hpool : ctx.registry.HasPool id) {colons : Token}
    (hfunction : function.kind = .text) (htext : function.text = "pool")
    (hcolons : colons.kind = .doubleColon) (start : Position)
    (h : c.reader.rest = function :: colons :: ts) :
    ∃ e c', Construct.resume ctx (.tag start) c = .error e c' := by
  refine ⟨⟨colons.position, .expected "':' or ']'" colons.text⟩,
    (c.past function (colons :: ts)).past colons ts, ?_⟩
  change Tag.start ctx start c = _
  unfold Tag.start
  rw [run_bind_of_ok (resolve_pool hpool h hfunction htext start), run_bind_of_ok (run_tokens _),
    run_bind_of_ok (takeLoose_of_ne rfl (by rw [hcolons]; nofun) (by rw [hcolons]; nofun)),
    if_neg Bool.false_ne_true,
    run_bind_of_error (expectLoose_of_ne rfl (by rw [hcolons]; nofun) (by rw [hcolons]; nofun))]

/-! ## Its program -/

/-- Nothing, or a mark. -/
def IsMark (ls : List Line) : Prop := ls = [] ∨ ∃ line column offset, ls = [.plain (.debug line column offset)]

theorem Part.mark {lib : Option Registry} {g : Setting} {d : Draft} {ls : List Line}
    {defs : List Definition} {S : Reach → Prop} {n : Nat} (h : Part lib g d ls defs S n c)
    (p : Position) :
    ∃ marks, IsMark marks ∧ Part lib g d (ls ++ marks) defs S n { c with out := c.out.mark p } := by
  unfold Emitter.mark
  split
  · exact ⟨_, .inr ⟨_, _, _, rfl⟩, h.emit rfl⟩
  · exact ⟨[], .inl rfl, by rwa [List.append_nil]⟩

/-- What stands before the pattern of a call. -/
def poolOperands (marks : List Line) (name key : String) : List Line :=
  marks ++ [.text .push name, .text .push key]

/-- The offset of the pattern. -/
def poolStart (marks : List Line) (name key : String) : Nat :=
  Line.sizes (poolOperands marks name key) + (Instr.jump 0).size

/-- The lines of a call of `pool`, the code of its pattern being `code`. -/
def poolLines (marks : List Line) (name key : String) (id : Nat) (code : Code) : List Line :=
  poolOperands marks name key ++
    .plain (.jump (Int32.ofNat (poolStart marks name key + code.size + Instr.return.size))) ::
      (code.lines (poolStart marks name key) ++
        [.plain .return, .plain (.pushAddress (Int32.ofNat (poolStart marks name key))),
          .plain (.nativeCall id.toUInt16 3)])

section

variable {g : Setting} {marks : List Line}

theorem Part.poolFront {n : Nat} (h : Part none g {} marks [] (fun _ => True) (n + 2) c)
    (name key : String) :
    Part none g {} (poolOperands marks name key) [] (fun _ => True) n
      { c with out := Compile.poolFront c.out name key } := by
  have hpush : StringUse.push ≠ .print := nofun
  have hkey := (h.emitString hpush name).emitString hpush key
  rwa [List.append_assoc] at hkey

theorem Part.poolEnd {n : Nat} {code : Code} {defs : List Definition} {S : Reach → Prop} (id : Nat)
    (h : Part none g {} (poolOperands marks name key ++ [.plain (.jump 0)] ++ code.lines (poolStart marks name key)) defs S n c) :
    Part none g {} (poolLines marks name key id code) defs S n
      { c with
        out := Compile.poolEnd c.out id (Line.sizes (poolOperands marks name key))
          (poolStart marks name key) } := by
  have hreturn := h.emit (show Instr.return.namesString = false from rfl)
  rw [List.append_assoc, List.append_assoc, List.singleton_append] at hreturn
  have hland := hreturn.land rfl (Nat.zero_add _).symm
  have htarget : ({} : Draft).finish + Line.sizes (poolOperands marks name key ++ .plain (.jump 0) ::
      (code.lines (poolStart marks name key) ++ [.plain .return])) =
      poolStart marks name key + code.size + Instr.return.size := by
    have hstart : ({} : Draft).finish = 0 := rfl
    simp only [hstart, Line.sizes_append, Line.sizes_cons, Line.sizes_nil, Code.sizes_lines, poolStart,
      Line.size]
    omega
  rw [htarget] at hland
  have haddress := hland.emit
    (show (Instr.pushAddress (Int32.ofNat (poolStart marks name key))).namesString = false from rfl)
  have hcall := haddress.emit (show (Instr.nativeCall id.toUInt16 3).namesString = false from rfl)
  rw [List.append_assoc, List.append_assoc, List.cons_append, List.append_assoc] at hcall
  exact hcall

/-- What closes a call is the bracket that the source ends with. -/
theorem eq_of_nest {body rest : List Token} {closing sep : Token}
    (hbody : Token.nest 0 body = some 0) (hts : Token.nest 0 ts = some 0)
    (h : body ++ [closing] = ts ++ sep :: rest) (hsep : sep.kind = .rightSquare) : rest = [] := by
  obtain ⟨us, -, hus⟩ | ⟨us, rfl, hus⟩ := List.append_eq_append_iff.1 h
  · have hlength := congrArg List.length hus
    simp only [List.length_append, List.length_cons, List.length_nil] at hlength
    exact List.eq_nil_of_length_eq_zero (by omega)
  · cases us with
    | nil => exact (List.cons.inj hus).2
    | cons u us =>
      -- the bracket would close one that the pattern has not opened
      rw [← (List.cons.inj hus).1, Token.nest_append, hts, Option.bind_some, Token.nest_cons, hsep] at hbody
      cases hbody

/-- The pattern of a call is compiled behind the operands. -/
theorem Part.poolBody {n : Nat}
    (hpart : Part none g {} (poolOperands marks name key) [] (fun _ => True) n c)
    (h : Completes ctx (.pattern .argument) { c with out := c.out.emit (.jump 0) } c') :
    ∃ (code : Code) (defs : List Definition) (S : Reach → Prop),
      Part none g {} (poolOperands marks name key ++ [.plain (.jump 0)] ++
        code.lines (poolStart marks name key)) defs S n c' := by
  have hctx : ctx.Ok none := ⟨fun _ _ _ => by nofun, by nofun, by nofun, by nofun⟩
  have hjump : (Instr.jump 0).namesString = false := rfl
  obtain ⟨g', front, hdrafted, hinside⟩ :=
    ((hpart.emit hjump).enter (hpart.ended_emit hjump) fun _ _ _ _ => trivial).pattern
  obtain ⟨code, hcode⟩ := (hinside _ (h.drafted hctx hdrafted)).leave
  have hstart : ({} : Draft).finish +
      Line.sizes (poolOperands marks name key ++ [.plain (.jump 0)]) = poolStart marks name key := by
    have hfinish : ({} : Draft).finish = 0 := rfl
    rw [hfinish, Line.sizes_append, Nat.zero_add]
    rfl
  rw [hstart] at hcode
  exact ⟨code, _, _, hcode⟩

/-- The pattern of a call ends at a bracket. -/
theorem Completes.of_openPool {skip body : Nat} {start : Position}
    (hready : Terminator.argument.Stops c.reader)
    (h : Completes ctx (.argument (openPool id start) (.outOfLine skip body)) c c') :
    ∃ sep rest, c.reader.rest = sep :: rest ∧ sep.kind = .rightSquare ∧
      c' = { c.past sep rest with out := Compile.poolEnd c.out id skip body } := by
  unfold Terminator.Stops at hready
  split at hready
  · cases hready
  · rename_i sep rest hrest
    have hsep : sep.kind = .semicolon ∨ sep.kind = .rightSquare := by
      simpa [Terminator.endsAt] using hready
    obtain hsep | hsep := hsep
    · obtain ⟨e, c₁, herror⟩ := resume_argument_of_semicolon hrest hsep
      exact (h.of_error herror).elim
    · exact ⟨sep, rest, hrest, hsep, h.of_done (resume_argument hrest hsep)⟩

theorem completes_pool (hpool : ctx.registry.HasPool id) (htokens : Token.PoolTokens c.reader.rest)
    (hpart : Part none g {} [] [] (fun _ => True) 0 c) (h : Completes ctx (.pattern .root) c c') :
    ∃ marks name key code defs S n, IsMark marks ∧
      Part none g {} (poolLines marks name key id code) defs S n c' := by
  generalize hrest : c.reader.rest = tokens at htokens
  cases htokens with
  | @intro opening function colon first second closing name key body hopening hfunction htext hcolon
      hname hfirst hkey hsecond hbody hclosing =>
    obtain ⟨c₃, htag, hroot⟩ := h.of_push (resume_root hrest hopening)
    obtain ⟨c₂, hpattern, hargument⟩ := htag.of_push
      (resume_tag hpool hfunction htext hcolon hname hfirst hkey hsecond opening.position rfl rfl)
    obtain ⟨marks, hmarks, hmarked⟩ := (hpart.reader
      (r := { c.reader with rest := _, last := opening.position }) (k := 1)
      (Nat.le_of_eq (congrArg List.length hrest.symm))).mark opening.position
    have hread := hmarked.reader (k := 2)
      (r := { c.reader with rest := body ++ [closing], last := second.position }) (by
        simp only [Token.Reader.Passes, List.length_append, List.length_cons]
        omega)
    have hoperands := (hread.spare (k := 2) (by omega)).poolFront (String.join (name.map (·.value)))
      (String.join (key.map (·.value)))
    obtain ⟨code, defs, S, hcode⟩ := hoperands.poolBody hpattern
    -- the pattern takes up all but the last token, so that nothing is left behind the call
    obtain ⟨⟨ts, hts, hopen⟩, hstops⟩ := hpattern.nests trivial
    have hnest : Token.nest 0 ts = some 0 := Token.nest_of_openAfter hopen
    obtain ⟨sep, rest, hc₂, hsep, hc₃⟩ := hargument.of_openPool hstops
    rw [hc₂] at hts
    obtain rfl := eq_of_nest hbody hnest hts hsep
    have hc' : c' = c₃ := by
      refine hroot.of_done ?_
      change pattern .root c₃.reader.rest c₃ = _
      rw [hc₃]
      rfl
    have hskip : (Compile.poolFront (c.out.mark opening.position) (String.join (name.map (·.value)))
        (String.join (key.map (·.value)))).position =
        Line.sizes (poolOperands marks (String.join (name.map (·.value)))
          (String.join (key.map (·.value)))) := hoperands.position.trans (Nat.zero_add _)
    have hend := (hcode.poolEnd id).reader (k := 1)
      (r := { c₂.reader with rest := [], last := sep.position }) (Nat.le_of_eq (congrArg List.length hc₂.symm))
    rw [Emitter.position_emit, hskip] at hc₃
    rw [hc', hc₃]
    exact ⟨marks, _, _, code, defs, S, _, hmarks, hend⟩

end

/-- What the program of a call of `pool` consists of. -/
theorem compile_poolCall (hpool : ctx.registry.HasPool id) {title pattern : String}
    (hname : Token.IsConstant name) (hkey : Token.IsConstant key)
    (hpattern : Token.IsBalanced pattern) (hlength : (poolCall name key pattern).length ≤ 2 ^ 31)
    {p : Program} (h : compile ctx title (poolCall name key pattern) = .ok p) :
    ∃ marks name key code, IsMark marks ∧ p.Reads (poolLines marks name key id code) ∧
      p.code.size < 2 ^ 31 := by
  unfold compile at h
  split at h
  · rename_i c hc
    cases h
    obtain ⟨hcompletes, hsize⟩ := completes_of_source hc
    obtain htokens | ⟨opening, function, colons, rest, htokens, hopening, hfunction, htext, hcolons⟩ :=
      Token.scan_poolCall hname hkey hpattern
    · obtain ⟨marks, name', key', code, defs, S, n, hmarks, hpart⟩ :=
        completes_pool hpool htokens (inv_start ctx _).part hcompletes
      obtain ⟨script, hfollows, hall⟩ := hpart.spells
      have hreads := hfollows.build (Nat.le_trans hpart.around.size_strings_le hlength) title
      have hposition := hpart.spells.position
      rw [hall] at hreads
      refine ⟨marks, name', key', code, hmarks, hreads, ?_⟩
      rw [hreads.size, ← hposition]
      exact hsize
    · obtain ⟨c₁, htag, -⟩ := hcompletes.of_push (resume_root htokens hopening)
      have hrest : ({ Compilation.past (.start ctx (poolCall name key pattern)) opening
          (function :: colons :: rest) with
        out := (Compilation.start ctx (poolCall name key pattern)).out.mark opening.position } :
        Compilation).reader.rest = function :: colons :: rest := rfl
      obtain ⟨e, c₂, herror⟩ :=
        resume_tag_of_doubleColon hpool hfunction htext hcolons opening.position hrest
      exact (htag.of_error herror).elim
  · cases h

end Compile

end Wordloom
