import TerseSchema.Proofs.Literals

/-!
# Flattening in one pass

Reading a text and assembling its tokens takes one pass, with the open groups on a
stack.  It keeps step with rewriting: what is assembled, with the text of the tokens
that are still to come behind it, is a stage of the rewriting, and a closing bracket
that finishes a group stands for one step.  A closing bracket that has no partner
stays in the text for ever.

## Main definitions

* `Assembly.written` — the text of a flat schema under construction.
* `Assembly.Tidy` — every open group begins with its bracket and has no other.
* `Jammed` — the first closing bracket of a text has no partner.
* `Assembly.Simulates` — taking a text in keeps step with rewriting.

## Main results

* `step_simulates`, `run_simulates` — **assembling keeps step with rewriting.**
* `flatten_eq_ok_iff` — **flattening in one pass is flattening by rewriting.**
-/

namespace TerseSchema

/-! ### Texts that rewriting cannot help -/

/-- The first closing bracket of a text has no partner: the last bracket before it, if
there is one, opens another kind of group. -/
def Jammed (text : List Char) : Prop :=
  ∃ before kind after, text = before ++ Bracket.closer kind :: after ∧
    (∀ kind', Bracket.closer kind' ∉ before) ∧
    ∀ outer inner, before = outer ++ Bracket.opener kind :: inner → ∃ c ∈ inner, c ∈ brackets

theorem Jammed.exists_bracket {text : List Char} (h : Jammed text) : ∃ c ∈ text, c ∈ brackets := by
  obtain ⟨before, kind, after, rfl, -, -⟩ := h
  exact ⟨kind.closer, by simp, closer_mem kind⟩

/-- Rewriting goes on behind the bracket that has no partner. -/
theorem Jammed.liftsGroup {r r' : Rewriting} (h : Jammed r.text) (hr : LiftsGroup r r') :
    Jammed r'.text := by
  obtain ⟨before, kind, after, htext, hopen, hpartner⟩ := h
  obtain ⟨before', group, after', hgroup, htext', -, rfl⟩ := hr
  cases hgroup with
  | @intro kind' body hbody =>
    have hplaces : before ++ kind.closer :: after =
        (before' ++ kind'.opener :: body) ++ kind'.closer :: after' := by
      rw [← htext, htext']
      simp
    rcases append_cons_cases hplaces with ⟨rfl, hkind, -⟩ | ⟨mid, hmid, -⟩ | ⟨mid, rfl, -⟩
    · -- the group would be the partner's
      obtain rfl := closer_inj hkind
      obtain ⟨c, hc, hmem⟩ := hpartner before' body rfl
      exact absurd hmem (hbody c hc)
    · rcases append_cons_cases hmid with ⟨-, hkind, -⟩ | ⟨mid', -, rfl⟩ | ⟨mid', rfl, -⟩
      · exact absurd hkind (opener_ne_closer kind' kind)
      · exact absurd (closer_mem kind) (hbody _ (by simp))
      · -- the group is behind, and so is its number
        refine ⟨before, kind, mid' ++ (Reference.digits r.table.length ++ after'), ?_, hopen,
          hpartner⟩
        simp
    · exact absurd (by simp) (hopen kind')

theorem Jammed.reaches {r r' : Rewriting} (h : Jammed r.text)
    (hr : Relation.ReflTransGen LiftsGroup r r') : Jammed r'.text := by
  induction hr with
  | refl => exact h
  | tail _ hstep ih => exact ih.liftsGroup hstep

/-- Without closing brackets there is nothing to rewrite. -/
theorem not_liftsGroup_of_open {r : Rewriting} (h : ∀ kind, Bracket.closer kind ∉ r.text)
    (r' : Rewriting) : ¬ LiftsGroup r r' := by
  rintro ⟨before, group, after, ⟨kind, hbody⟩, htext, -⟩
  refine h kind ?_
  rw [htext]
  simp

/-- A group before which no bracket is closed is the left-most one. -/
theorem length_le_of_open {before group after before' group' after' : List Char}
    (hopen : ∀ kind, Bracket.closer kind ∉ before) (hgroup : IsInnermost group)
    (hgroup' : IsInnermost group')
    (he : before ++ (group ++ after) = before' ++ (group' ++ after')) :
    before.length ≤ before'.length := by
  obtain ⟨kind, hbody⟩ := hgroup
  obtain ⟨kind', hbody'⟩ := hgroup'
  simp only [List.cons_append, List.append_assoc] at he
  rcases append_cons_cases he with ⟨rfl, -⟩ | ⟨mid, rfl, -⟩ | ⟨mid, rfl, hrest⟩
  · exact Nat.le_refl _
  · rw [List.length_append]
    exact Nat.le_add_right _ _
  · -- a group that began before would hold this one's bracket
    rcases append_cons_cases hrest with ⟨-, hkind, -⟩ | ⟨mid', rfl, -⟩ | ⟨mid', rfl, -⟩
    · exact absurd hkind.symm (opener_ne_closer kind kind')
    · exact absurd (by simp) (hopen kind')
    · exact absurd (opener_mem kind) (hbody' _ (by simp))

/-! ### The text of a flat schema under construction -/

namespace Assembly

/-- The text of a flat schema under construction: the root, and the open groups, the
outermost first. -/
def written (a : Assembly) : List Char :=
  a.root.reverse ++ a.groups.reverse.flatMap fun group => group.body.reverse

/-- Every open group begins with its bracket, and has no other; the root has none. -/
structure Tidy (a : Assembly) : Prop where
  root : ∀ c ∈ a.root, c ∉ brackets
  groups : ∀ group ∈ a.groups, ∃ body, group.body = body ++ [group.kind.opener] ∧
    ∀ c ∈ body, c ∉ brackets

/-- The innermost open group, and what is written before it. -/
theorem Tidy.of_cons {a : Assembly} (ha : a.Tidy) {group : OpenGroup} {outer : List OpenGroup}
    (h : a.groups = group :: outer) :
    (∃ body, group.body = body ++ [group.kind.opener] ∧ ∀ c ∈ body, c ∉ brackets) ∧
      { a with groups := outer }.Tidy := by
  obtain ⟨hroot, hgroups⟩ := ha
  rw [h, List.forall_mem_cons] at hgroups
  exact ⟨hgroups.1, hroot, hgroups.2⟩

theorem written_emit (a : Assembly) (piece : List Char) :
    (a.emit piece).written = a.written ++ piece := by
  unfold emit
  split
  · next h => simp [written, h]
  · next group outer h => simp [written, h]

/-- Text without brackets leaves everything tidy. -/
theorem Tidy.emit {a : Assembly} (ha : a.Tidy) {piece : List Char}
    (hpiece : ∀ c ∈ piece, c ∉ brackets) : (a.emit piece).Tidy := by
  have hreverse : ∀ c ∈ piece.reverse, c ∉ brackets := fun c hc =>
    hpiece c (List.mem_reverse.mp hc)
  unfold Assembly.emit
  split
  · exact ⟨List.forall_mem_append.mpr ⟨hreverse, ha.root⟩, ha.groups⟩
  · next group outer h =>
    obtain ⟨⟨body, hbody, hplain⟩, houter⟩ := ha.of_cons h
    refine ⟨ha.root, List.forall_mem_cons.mpr ⟨⟨piece.reverse ++ body, ?_, ?_⟩, houter.groups⟩⟩
    · simp [hbody]
    · exact List.forall_mem_append.mpr ⟨hreverse, hplain⟩

/-- In what is written no bracket is closed. -/
theorem Tidy.closer_notMem {a : Assembly} (ha : a.Tidy) (kind : Bracket) :
    kind.closer ∉ a.written := by
  intro hmem
  rcases List.mem_append.mp hmem with hmem | hmem
  · exact ha.root _ (List.mem_reverse.mp hmem) (closer_mem kind)
  · obtain ⟨group, hgroup, hmem⟩ := List.mem_flatMap.mp hmem
    obtain ⟨body, hbody, hplain⟩ := ha.groups group (List.mem_reverse.mp hgroup)
    rw [hbody, List.mem_reverse, List.mem_append, List.mem_singleton] at hmem
    rcases hmem with hmem | hmem
    · exact hplain _ hmem (closer_mem kind)
    · exact opener_ne_closer group.kind kind hmem.symm

/-- What is written before the innermost open group, and what is written of it. -/
theorem written_cons {a : Assembly} {group : OpenGroup} {outer : List OpenGroup}
    (h : a.groups = group :: outer) :
    a.written = { a with groups := outer }.written ++ group.body.reverse := by
  simp [written, h]

/-! ### One token -/

/-- A closing bracket that finishes a group stands for one step of rewriting. -/
theorem liftsGroup_closing {a : Assembly} (ha : a.Tidy) {group : OpenGroup}
    {outer : List OpenGroup} (h : a.groups = group :: outer) (rest : List Char) :
    LiftsGroup ⟨a.written ++ group.kind.closer :: rest, a.lookups⟩
      ⟨{ a with groups := outer }.written ++ (Reference.digits a.lookups.length ++ rest),
        a.lookups ++ [(group.kind.closer :: group.body).reverse]⟩ := by
  obtain ⟨⟨body, hbody, hplain⟩, htidy⟩ := ha.of_cons h
  have hinner : IsInnermost (group.kind.closer :: group.body).reverse := by
    have hreverse : ∀ c ∈ body.reverse, c ∉ brackets := fun c hc =>
      hplain c (List.mem_reverse.mp hc)
    simpa [hbody] using IsInnermost.intro group.kind hreverse
  have htext : a.written ++ group.kind.closer :: rest = { a with groups := outer }.written ++
      ((group.kind.closer :: group.body).reverse ++ rest) := by
    rw [written_cons h]
    simp
  refine ⟨_, _, rest, hinner, htext, fun before' group' after' hgroup' he => ?_, rfl⟩
  exact length_le_of_open htidy.closer_notMem hinner hgroup' (htext.symm.trans he)

/-- A closing bracket behind the root has no partner. -/
theorem jammed_nil {a : Assembly} (ha : a.Tidy) (h : a.groups = []) (kind : Bracket)
    (rest : List Char) : Jammed (a.written ++ kind.closer :: rest) := by
  refine ⟨a.written, kind, rest, rfl, ha.closer_notMem, fun outer inner he => ?_⟩
  have hroot : a.written = a.root.reverse := by simp [written, h]
  have hmem : kind.opener ∈ a.root := by
    rw [← List.mem_reverse, ← hroot, he]
    simp
  exact absurd (opener_mem kind) (ha.root _ hmem)

/-- A closing bracket of another kind than the innermost open group has no partner. -/
theorem jammed_cons {a : Assembly} (ha : a.Tidy) {group : OpenGroup} {outer : List OpenGroup}
    (h : a.groups = group :: outer) {kind : Bracket} (hkind : group.kind ≠ kind)
    (rest : List Char) : Jammed (a.written ++ kind.closer :: rest) := by
  obtain ⟨⟨body, hbody, hplain⟩, -⟩ := ha.of_cons h
  have hwritten : a.written = { a with groups := outer }.written ++
      group.kind.opener :: body.reverse := by
    rw [written_cons h, hbody]
    simp
  refine ⟨a.written, kind, rest, rfl, ha.closer_notMem, fun before inner he => ?_⟩
  rcases append_cons_cases (hwritten.symm.trans he) with ⟨-, hsame, -⟩ | ⟨mid, -, hmid⟩ |
    ⟨mid, -, hmid⟩
  · exact absurd (opener_inj hsame) hkind
  · -- behind its own bracket the group has no other
    have hmem : kind.opener ∈ body := by
      rw [← List.mem_reverse, hmid]
      simp
    exact absurd (opener_mem kind) (hplain _ hmem)
  · exact ⟨group.kind.opener, by simp [hmid], opener_mem _⟩

/-- Taking a text into a flat schema under construction keeps step with rewriting,
whatever is to come behind the text.  If it fails, rewriting comes to a text that it
cannot help. -/
def Simulates (a : Assembly) (text : List Char) (literals : List (List Char)) :
    Except SchemaError Assembly → Prop
  | .ok a' => a'.Tidy ∧ a'.literals = a.literals ++ literals ∧
      ∀ rest, Relation.ReflTransGen LiftsGroup ⟨a.written ++ (text ++ rest), a.lookups⟩
        ⟨a'.written ++ rest, a'.lookups⟩
  | .error _ => ∀ rest, ∃ r, Relation.ReflTransGen LiftsGroup
      ⟨a.written ++ (text ++ rest), a.lookups⟩ r ∧ Jammed r.text

/-- One text after another. -/
theorem Simulates.bind {a : Assembly} {text more : List Char}
    {literals literals' : List (List Char)} {x : Except SchemaError Assembly}
    {f : Assembly → Except SchemaError Assembly}
    (h : a.Simulates text literals x) (h' : ∀ mid : Assembly, mid.Tidy →
      mid.literals = a.literals ++ literals → mid.Simulates more literals' (f mid)) :
    a.Simulates (text ++ more) (literals ++ literals') (x.bind f) := by
  cases x with
  | error e =>
    intro rest
    rw [List.append_assoc]
    exact h (more ++ rest)
  | ok mid =>
    obtain ⟨hmid, hliterals, hreach⟩ := h
    have hmore := h' mid hmid hliterals
    show a.Simulates _ _ (f mid)
    cases hf : f mid with
    | error e =>
      rw [hf] at hmore
      intro rest
      obtain ⟨r, hr, hjammed⟩ := hmore rest
      refine ⟨r, ?_, hjammed⟩
      rw [List.append_assoc]
      exact (hreach (more ++ rest)).trans hr
    | ok a' =>
      rw [hf] at hmore
      obtain ⟨ha', hliterals', hreach'⟩ := hmore
      refine ⟨ha', ?_, fun rest => ?_⟩
      · rw [hliterals', hliterals, List.append_assoc]
      · rw [List.append_assoc]
        exact (hreach (more ++ rest)).trans (hreach' rest)

/-- **A closing bracket keeps step with rewriting**, unless it has no partner. -/
theorem closing_simulates {a : Assembly} (ha : a.Tidy) (kind : Bracket) (offset : Nat) :
    a.Simulates [kind.closer] [] (a.step (.closing kind offset)) := by
  cases h : a.groups with
  | nil =>
    rw [step, h]
    exact fun rest => ⟨_, .refl, jammed_nil ha h kind rest⟩
  | cons group outer =>
    rw [step, h]
    by_cases hkind : group.kind = kind
    · subst hkind
      obtain ⟨-, htidy⟩ := ha.of_cons h
      let body := (group.kind.closer :: group.body).reverse
      let closed : Assembly := { a with groups := outer, lookups := a.lookups ++ [body] }
      have hclosed : closed.Tidy := ⟨htidy.root, htidy.groups⟩
      simp only [if_true]
      refine ⟨hclosed.emit digits_notMem_brackets, ?_, fun rest => ?_⟩
      · exact (literals_emit closed _).trans (List.append_nil _).symm
      · rw [written_emit, lookups_emit, List.append_assoc]
        exact .single (liftsGroup_closing ha h rest)
    · simp only [if_neg hkind]
      exact fun rest => ⟨_, .refl, jammed_cons ha h hkind rest⟩

/-- **One token keeps step with rewriting.** -/
theorem step_simulates {a : Assembly} (ha : a.Tidy) {t : Token}
    (ht : ∀ c, t = .plain c → c ∉ brackets) :
    a.Simulates (t.piece a.literals.length) t.literals (a.step t) := by
  cases t with
  | plain c =>
    have hplain : ∀ d ∈ [c], d ∉ brackets := List.forall_mem_singleton.mpr (ht c rfl)
    refine ⟨ha.emit hplain, (literals_emit a [c]).trans (List.append_nil _).symm, fun rest => ?_⟩
    rw [written_emit, lookups_emit, List.append_assoc]
    exact .refl
  | literal text =>
    have hplain : ∀ d ∈ '$' :: Reference.digits a.literals.length, d ∉ brackets :=
      List.forall_mem_cons.mpr ⟨by decide, digits_notMem_brackets⟩
    have htidy : { a with literals := a.literals ++ [text] }.Tidy := ⟨ha.root, ha.groups⟩
    refine ⟨htidy.emit hplain, literals_emit _ _, fun rest => ?_⟩
    rw [written_emit, lookups_emit, List.append_assoc]
    exact .refl
  | opening kind offset =>
    have hwritten : (a.opened kind offset).written = a.written ++ [kind.opener] := by
      simp [written, opened]
    have htidy : (a.opened kind offset).Tidy :=
      ⟨ha.root, List.forall_mem_cons.mpr ⟨⟨[], rfl, List.forall_mem_nil _⟩, ha.groups⟩⟩
    refine ⟨htidy, (List.append_nil _).symm, fun rest => ?_⟩
    show Relation.ReflTransGen LiftsGroup _ ⟨(a.opened kind offset).written ++ rest, a.lookups⟩
    rw [hwritten, List.append_assoc]
    exact .refl
  | closing kind offset => exact closing_simulates ha kind offset

/-! ### All tokens -/

/-- **Assembling keeps step with rewriting.** -/
theorem run_simulates {tokens : List Token} (ht : ∀ c, .plain c ∈ tokens → c ∉ brackets) :
    ∀ {a : Assembly}, a.Tidy → a.Simulates (render a.literals.length tokens)
      (tokens.flatMap Token.literals) (a.run tokens) := by
  induction tokens with
  | nil => exact fun ha => ⟨ha, (List.append_nil _).symm, fun _ => .refl⟩
  | cons t tokens ih =>
    intro a ha
    have hfirst : ∀ c, t = .plain c → c ∉ brackets := fun c h => ht c (h ▸ List.mem_cons_self)
    have hrest : ∀ c, .plain c ∈ tokens → c ∉ brackets := fun c h =>
      ht c (List.mem_cons_of_mem _ h)
    refine (step_simulates ha hfirst).bind fun mid hmid hliterals => ?_
    -- the literals to come are numbered from here
    rw [← List.length_append, ← hliterals]
    exact ih hrest hmid

/-- A flat schema is finished if no bracket is left in what is written. -/
theorem finish_eq_ok_iff {a : Assembly} (ha : a.Tidy) (s : FlatSchema) :
    a.finish = .ok s ↔
      s = ⟨a.written, a.lookups, a.literals⟩ ∧ ∀ c ∈ a.written, c ∉ brackets := by
  cases h : a.groups with
  | nil =>
    have hroot : a.written = a.root.reverse := by simp [written, h]
    have hplain : ∀ c ∈ a.written, c ∉ brackets := by
      intro c hc
      rw [hroot, List.mem_reverse] at hc
      exact ha.root c hc
    have hfinish : a.finish = .ok ⟨a.written, a.lookups, a.literals⟩ := by
      rw [finish, h, hroot]
      rfl
    rw [hfinish]
    constructor
    · intro he
      exact ⟨(Except.ok.inj he).symm, hplain⟩
    · rintro ⟨rfl, -⟩
      rfl
  | cons group outer =>
    obtain ⟨⟨body, hbody, -⟩, -⟩ := ha.of_cons h
    have hmem : group.kind.opener ∈ a.written := by
      rw [written_cons h, hbody]
      simp
    have hfinish : ∃ e, a.finish = .error e := by
      rw [finish, h, List.getLast?_cons]
      exact ⟨_, rfl⟩
    obtain ⟨e, he⟩ := hfinish
    rw [he]
    refine iff_of_false (fun hok => by cases hok) fun hplain => ?_
    exact hplain.2 _ hmem (opener_mem group.kind)

/-- What is left when no group can be rewritten says whether assembling succeeds. -/
theorem finish_run_eq_ok_iff {tokens : List Token} (ht : ∀ c, .plain c ∈ tokens → c ∉ brackets)
    {r : Rewriting} (hr : Exhausts LiftsGroup ⟨render 0 tokens, []⟩ r) (s : FlatSchema) :
    (({} : Assembly).run tokens).bind Assembly.finish = .ok s ↔
      s = ⟨r.text, r.table, tokens.flatMap Token.literals⟩ ∧ ∀ c ∈ r.text, c ∉ brackets := by
  have htidy : ({} : Assembly).Tidy := ⟨List.forall_mem_nil _, List.forall_mem_nil _⟩
  have hsimulates := run_simulates ht htidy
  cases hrun : ({} : Assembly).run tokens with
  | ok a =>
    rw [hrun] at hsimulates
    obtain ⟨ha, hliterals, hreach⟩ := hsimulates
    -- nothing is closed in what is written, so that the rewriting ends here
    have hend : Exhausts LiftsGroup ⟨render 0 tokens, []⟩ ⟨a.written, a.lookups⟩ := by
      have hreach := hreach []
      rw [List.append_nil, List.append_nil] at hreach
      exact ⟨hreach, not_liftsGroup_of_open ha.closer_notMem⟩
    have hliterals : a.literals = tokens.flatMap Token.literals := hliterals
    rw [hr.unique liftsGroup_rightUnique hend, ← hliterals]
    exact finish_eq_ok_iff ha s
  | error e =>
    rw [hrun] at hsimulates
    obtain ⟨mid, hreach, hjammed⟩ := hsimulates []
    rw [List.append_nil] at hreach
    have hreach : Relation.ReflTransGen LiftsGroup ⟨render 0 tokens, []⟩ mid := hreach
    have hleft := hr.of_reach liftsGroup_rightUnique hreach
    obtain ⟨c, hc, hmem⟩ := (hjammed.reaches hleft.1).exists_bracket
    refine iff_of_false (fun h => by cases h) fun h => h.2 c hc hmem

end Assembly

/-! ### Whole texts -/

theorem not_liftsLiteral {text : List Char} {table : List (List Char)} (h : '"' ∉ text)
    (r : Rewriting) : ¬ LiftsLiteral ⟨text, table⟩ r := by
  rintro ⟨before, literal, after, -, -, htext, -⟩
  refine h ?_
  rw [show text = _ from htext]
  simp

/-- Of a text that spells lexemes, rewriting leaves what it leaves of their tokens. -/
theorem Rewritten.of_spells {ls : List Lexeme} {text : List Char} (h : Spells ls text)
    (hl : ∀ l ∈ ls, l.IsLegible) {tokens : List Token} (ht : List.Forall₂ Reads ls tokens)
    {r : FlatSchema} (hr : Rewritten text r) : r.literals = tokens.flatMap Token.literals ∧
      Exhausts LiftsGroup ⟨render 0 tokens, []⟩ ⟨r.flat, r.lookups⟩ := by
  obtain ⟨bare', hbare', hflat⟩ := hr
  obtain ⟨bare, hquote, hrender, hlifts⟩ := h.lifts hl ht []
  have hbare : Exhausts LiftsLiteral ⟨text, []⟩ ⟨bare, tokens.flatMap Token.literals⟩ :=
    ⟨hlifts [] List.not_mem_nil, not_liftsLiteral hquote⟩
  -- the literals leave the text in one way
  obtain ⟨rfl, hliterals⟩ := Rewriting.mk.inj (hbare'.unique liftsLiteral_rightUnique hbare)
  rw [hrender] at hflat
  exact ⟨hliterals, hflat⟩

/-- **Flattening in one pass is flattening by rewriting.**  Every text is rewritten to
one flat schema.  Flattening succeeds exactly if every quote of the text is closed and
rewriting leaves no bracket, and its answer then is the schema that the text is
rewritten to. -/
theorem flatten_eq_ok_iff (text : String) : ∃ r, (∀ s, Rewritten text.toList s ↔ s = r) ∧
    ∀ s, flatten text = .ok s ↔
      s = r ∧ text.toList.count '"' % 2 = 0 ∧ ∀ c ∈ r.flat, c ∉ brackets := by
  obtain ⟨r, hr⟩ := exists_rewritten text.toList
  refine ⟨r, hr, fun s => ?_⟩
  obtain ⟨ls, read, tail, htext, hread, hl, htail⟩ := exists_spells text.toList
  have heven := hread.count_quote hl
  rcases htail with rfl | ⟨body, rfl, hbody⟩
  · rw [List.append_nil] at htext
    obtain ⟨tokens, htokens, hreads⟩ := hread.tokenize_eq hl
    have hrewritten : Rewritten read r := htext ▸ (hr r).mpr rfl
    obtain ⟨hliterals, hflat⟩ := hrewritten.of_spells hread hl hreads
    have hplain : ∀ t ∈ tokens, ∀ c, t = .plain c → c ∉ brackets :=
      forall_mem_right hreads fun _ _ hread c ht => (ht ▸ hread).plain_notMem
    rw [flatten, htext, htokens]
    refine (Assembly.finish_run_eq_ok_iff (fun c hc => hplain _ hc c rfl) hflat s).trans ?_
    rw [← hliterals]
    exact and_congr_right fun _ => (and_iff_right heven).symm
  · -- the last quote is never closed
    obtain ⟨e, he⟩ := tokenize_unclosed hread hl hbody
    have hodd : text.toList.count '"' % 2 = 1 := by
      rw [htext, List.count_append, List.count_cons_self, List.count_eq_zero.mpr hbody]
      omega
    rw [flatten, htext, he]
    refine iff_of_false (fun h => by cases h) fun h => ?_
    rw [← htext] at h
    omega

end TerseSchema
