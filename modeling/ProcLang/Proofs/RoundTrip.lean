import ProcLang.Proofs.Parsing.Declarations
import ProcLang.Proofs.Parsing.Spelling

/-!
# Reading back programs

A program whose functions have different names and only call each other can be laid out in many
ways. From each of them it is read back, with every node at the position of its token.

## Main definitions

* `Declaration.Renders`, `Program.Renders` — the tokens of functions and programs.
* `Program.SpelledBy` — the same up to positions.

## Main statements

* `Program.parse_roundTrip` — a program is read back from each of its layouts.
-/
namespace ProcLang

open Outline

/-- The tokens of a function. Line feeds do not count in its header. -/
inductive Declaration.Renders : Declaration → List Token → Prop where
  | mk {name : String} {params : List Param} {returns : List Ty} {body : List Stmt}
      {hs ts : List Token} (p c l r : Position)
      (hh : Header.Renders params returns (hs.filter (!·.isSymbol .lineBreak)))
      (hb : Stmt.RendersAll body ts) :
      Declaration.Renders ⟨name, params, returns, body, some p⟩
        (⟨.ident name, p⟩ :: ⟨.symbol .doubleColon, c⟩ :: (hs ++ ⟨.symbol .braceOpen, l⟩ ::
          (ts ++ [⟨.symbol .braceClose, r⟩])))

/-- The tokens of a program: functions with nothing but breaks around them, and the end of the
text. -/
inductive Program.Renders : Program → List Token → Prop where
  | nil {gap : List Token} (hg : ∀ t ∈ gap, t.isBreak = true) (p : Position) :
      Program.Renders [] (gap ++ [⟨.eof, p⟩])
  | cons {d : Declaration} {ds : Program} {gap ts us : List Token}
      (hg : ∀ t ∈ gap, t.isBreak = true) (hd : d.Renders ts) (hds : Program.Renders ds us) :
      Program.Renders (d :: ds) (gap ++ (ts ++ us))

/-- The tokens spell the program, wherever its nodes stand. -/
def Program.SpelledBy (p : Program) (ts : List Token) : Prop :=
  ∃ q : Program, q.erase = p.erase ∧ q.Renders ts

/-! ## Sections of a rendering -/

theorem Header.Renders.inert {params : List Param} {returns : List Ty} {hs : List Token}
    (h : Header.Renders params returns (hs.filter (!·.isSymbol .lineBreak))) :
    ∀ t ∈ hs, isInert t = true := by
  intro t ht
  cases hl : t.isSymbol .lineBreak with
  | true =>
    have hkind : t.kind = .symbol .lineBreak := by simpa [Token.isSymbol] using hl
    simp [isInert_iff, hkind]
  | false =>
    rcases h.listed_or_arrow t (List.mem_filter.mpr ⟨ht, by simp [hl]⟩) with hlisted | harrow
    · have hsymbol := @Header.isSymbol_of_listed t hlisted
      simp [isInert, hsymbol]
    · simp [isInert_iff, harrow]

/-- A section with the parts of a function; its body is still to be read. -/
structure Outline.Section.Spells (s : Section) (d : Declaration) : Prop where
  name : d.name = s.name
  header : Header.Renders d.params d.returns (s.header.filter (!·.isSymbol .lineBreak))
  body : Stmt.RendersAll d.body s.body
  pos : d.pos = some s.pos

theorem Outline.Section.Spells.declares {s : Section} {d : Declaration} (h : s.Spells d)
    {o : Outline} (hl : Stmt.AllLinked o.arity? d.body) : s.Declares o d :=
  ⟨h.name, h.header, h.body.parse hl, h.pos⟩

theorem Declaration.Renders.exists_section {d : Declaration} {ts : List Token} (h : d.Renders ts) :
    ∃ s : Section, s.tokens = ts ∧ s.Spells d := by
  cases h with
  | @mk name params returns body hs ts p c l r hh hb =>
    exact ⟨⟨name, p, c, hs, l, ts, r, hh.inert, hb.balanced 0⟩, rfl, rfl, hh, hb, rfl⟩

/-- A rendered program is cut into the sections of its functions. -/
theorem Program.Renders.sections {p : Program} {ts : List Token} (h : p.Renders ts) (base : Nat) :
    ∃ ss, Sections (fun t => t.isBreak = true ∨ t.isEof = true) base ts ss ∧
      List.Forall₂ (fun x d => x.2.Spells d) ss p := by
  induction h generalizing base with
  | nil hg p =>
    refine ⟨[], .nil fun t ht => ?_, .nil⟩
    rcases List.mem_append.mp ht with ht | ht
    · exact .inl (hg t ht)
    · rw [List.mem_singleton.mp ht]
      exact .inr rfl
  | @cons d ds gap ts us hg hd _ ih =>
    obtain ⟨s, rfl, hs⟩ := hd.exists_section
    obtain ⟨ss, hss, hall⟩ := ih (base + gap.length + s.tokens.length)
    exact ⟨_, .cons (fun t ht => .inl (hg t ht)) s hss, .cons hs hall⟩

theorem Outline.isInert_of_gap {t : Token} (h : t.isBreak = true ∨ t.isEof = true) :
    isInert t = true := by
  obtain ⟨kind, p⟩ := t
  simp only [Token.isBreak, Token.isEof, Token.isSymbol, Bool.or_eq_true, beq_iff_eq] at h
  rcases h with (rfl | rfl) | rfl <;> rfl

/-- A linked program is read back from its tokens. -/
theorem Program.Renders.parse {p : Program} {ts : List Token} (h : p.Renders ts)
    (hn : (p.map (·.name)).Nodup) (hl : p.Linked) : Program.parse ts = .ok p := by
  obtain ⟨ss, hss, hall⟩ := h.sections 0
  have hnotes := notes_entriesOf (hall.imp fun x d h => ⟨h.name, h.header⟩)
  have harity := arity?_eq hnotes
  refine Program.parse_eq_ok.mpr
    ⟨ss, hss.mono fun t => isInert_of_gap, names_eq hnotes ▸ hn, ?_, ?_⟩
  · exact @Sections.forall_mem_gaps _ _ [] _ _ hss rfl
  · have hbodies : ∀ d ∈ p, Stmt.AllLinked (⟨entriesOf ss⟩ : Outline).arity? d.body := harity ▸ hl
    have hspells : List.Forall₂ (fun d (x : Nat × Section) => x.2.Spells d) p ss := hall.flip
    have hboth := (List.forall₂_and_left _ _).mpr ⟨hbodies, hspells⟩
    exact (hboth.imp fun d x ⟨hd, hx⟩ => hx.declares hd).flip

/-! ## Every linked program has a layout -/

theorem Declaration.exists_renders {arity? : String → Option Nat} (d : Declaration)
    (hl : Stmt.AllLinked arity? d.body) :
    ∃ d' ts, Declaration.erase d' = d.erase ∧ d'.Renders ts := by
  obtain ⟨body, ts, hb, hts⟩ := Stmt.exists_rendersAll d.body hl
  obtain ⟨hs, hh⟩ := Header.exists_renders d.params d.returns
  have hfilter : hs.filter (!·.isSymbol .lineBreak) = hs := by
    refine List.filter_eq_self.mpr fun t ht => ?_
    rcases hh.listed_or_arrow t ht with hlisted | harrow
    · simp [Header.isSymbol_of_listed hlisted (s := .lineBreak)]
    · simp [Token.isSymbol, harrow]
  have hheader : Header.Renders d.params d.returns (hs.filter (!·.isSymbol .lineBreak)) := by
    rwa [hfilter]
  exact ⟨⟨d.name, d.params, d.returns, body, some default⟩, _, by simp [Declaration.erase, hb],
    .mk default default default default hheader hts⟩

theorem Program.exists_spelledBy {p : Program} (hl : p.Linked) : ∃ ts, p.SpelledBy ts := by
  have hall : ∀ ds : Program, (∀ d ∈ ds, Stmt.AllLinked p.arity? d.body) →
      ∃ ts, SpelledBy ds ts := by
    intro ds hds
    induction ds with
    | nil => exact ⟨_, [], rfl, @Renders.nil [] (by simp) default⟩
    | cons d ds ih =>
      obtain ⟨hd, hds⟩ := List.forall_mem_cons.mp hds
      obtain ⟨d', ts, hd', hts⟩ := d.exists_renders hd
      obtain ⟨us, ds', hds', hus⟩ := ih hds
      refine ⟨_, d' :: ds', ?_, @Renders.cons _ _ [] _ _ (by simp) hts hus⟩
      simpa [erase] using ⟨hd', hds'⟩
  exact hall p hl

namespace Program

/-- A program whose functions have different names and only call each other can be laid out, and is
read back from each of its layouts. Its nodes then stand where their tokens do. -/
theorem parse_roundTrip {p : Program} (hn : (p.map (·.name)).Nodup) (hl : p.Linked) :
    (∃ ts, p.SpelledBy ts) ∧ ∀ ts, p.SpelledBy ts →
      ∃ q, Program.parse ts = .ok q ∧ q.erase = p.erase ∧ q.Renders ts := by
  refine ⟨exists_spelledBy hl, fun ts h => ?_⟩
  obtain ⟨q, hq, hr⟩ := h
  have hlq : q.Linked := by rwa [← linked_erase, hq, linked_erase]
  have hnames : ∀ r : Program, r.erase.map (·.name) = r.map (·.name) := fun r => by
    simp [erase, Declaration.erase, Function.comp_def]
  have hnq : (q.map (·.name)).Nodup := by rwa [← hnames, hq, hnames]
  exact ⟨q, hr.parse hnq hlq, hq, hr⟩

/-- The program of `layoutTokens`, without positions. -/
def layoutSample : Program :=
  [{ name := "f"
     params := [⟨"a", .i32⟩]
     returns := [.i32]
     body := [.expr (.return [.call "f" [.var "a" none] none, .literal (.int 2) none] none)]
     pos := none },
   { name := "main"
     params := []
     returns := []
     body :=
      [.branch
        { guard := .binary .lt
            (.call "f" [.literal (.int 1) none] none) (.literal (.int 3) none) none
          body := [.expr (.assign "x" none (.literal (.int 4) none) none)]
          otherwise := .block []
          pos := none },
       .expr (.call "f" [.var "x" none] none)]
     pos := none }]

/-- The tokens of two functions:

    f::i32 a->i32 { return f(a), 2 }
    main:: { if f(1)
    < 3 { x := 4; }

    else { }
    ; f(x) }
-/
def layoutTokens : List Token :=
  [.ident "f", .symbol .doubleColon, .type .i32, .ident "a", .symbol .arrow, .type .i32,
   .symbol .braceOpen, .keyword .return, .ident "f", .symbol .parenOpen, .ident "a",
   .symbol .parenClose, .symbol .comma, .literal (.int 2), .symbol .braceClose, .symbol .lineBreak,
   .ident "main", .symbol .doubleColon, .symbol .braceOpen, .keyword .if, .ident "f",
   .symbol .parenOpen, .literal (.int 1), .symbol .parenClose, .symbol .lineBreak, .symbol .less,
   .literal (.int 3), .symbol .braceOpen, .ident "x", .symbol .assign, .literal (.int 4),
   .symbol .semicolon, .symbol .braceClose, .symbol .lineBreak, .symbol .lineBreak, .keyword .else,
   .symbol .braceOpen, .symbol .braceClose, .symbol .lineBreak, .symbol .semicolon, .ident "f",
   .symbol .parenOpen, .ident "x", .symbol .parenClose, .symbol .braceClose,
   .eof].map (⟨·, default⟩)

/-- Values with commas between them, an `else` behind an empty line, and breaks of both kinds. -/
theorem roundTrip_layoutSample : (layoutSample.map (·.name)).Nodup ∧ layoutSample.Linked ∧
    layoutSample.SpelledBy layoutTokens ∧
    ∃ q, Program.parse layoutTokens = .ok q ∧ q.erase = layoutSample.erase ∧
      q.Renders layoutTokens := by
  have hnames : (layoutSample.map (·.name)).Nodup := by decide
  have hlinked : layoutSample.Linked := by
    simp [Linked, layoutSample, Stmt.AllLinked, Stmt.Linked, Conditional.Linked, Otherwise.Linked,
      Expr.Linked, Expr.AllLinked, arity?]
  have hcall : ∀ {arg : Expr} {t : Token}, Expr.Renders .factor arg [t] →
      Expr.Renders .factor (.call "f" [arg] (some default))
        [⟨.ident "f", default⟩, ⟨.symbol .parenOpen, default⟩, t, ⟨.symbol .parenClose, default⟩] :=
    fun h => .call default default default (.one (h.of_factor _))
  -- The function `f`.
  have hreturn := @Stmt.RendersAll.cons _ _ [] _ [] (by simp)
    (.simple (.return default (.cons default ((hcall (.var "a" default)).of_factor _)
      (.one ((Expr.Renders.literal (.int 2) default).of_factor _))))) (by simp) (.nil (by simp))
  have hheader : Header.Renders [⟨"a", .i32⟩] [.i32] _ := .mk
    (.listed (.one (.mk "a" .i32 default default))) (.behind default (.one (.bare .i32 default)))
  have hf := @Declaration.Renders.mk "f" _ _ _ ((layoutTokens.drop 2).take 4) _ default default
    default default hheader hreturn
  -- The function `main`.
  have hguard := @Expr.Renders.binary .comparison .lt _ _ _ _ default (by decide)
    ((hcall (.literal (.int 1) default)).of_factor _)
    ((Expr.Renders.literal (.int 3) default).of_factor _)
  have hthen := @Stmt.RendersAll.cons _ _ [] _ [⟨.symbol .semicolon, default⟩] (by simp)
    (.simple (.assign "x" default default ((Expr.Renders.literal (.int 4) default).of_factor _)))
    (by decide) (.nil (by decide))
  have helse := @Otherwise.Renders.block [.lineFeed, .lineFeed] [] [] (by decide)
    default default default (.nil (by simp))
  have hif := @Conditional.Renders.mk _ _ _ ((layoutTokens.drop 20).take 7) _ _ default default
    default hguard hthen helse
  have hlast := @Stmt.RendersAll.cons _ _ [.lineFeed, ⟨.symbol .semicolon, default⟩] _ []
    (by decide)
    (.simple (.value ((hcall (.var "x" default)).of_factor _))) (by simp) (.nil (by simp))
  have hbody := @Stmt.RendersAll.cons _ _ [] _ _ (by simp) (.branch default hif)
    (by decide) hlast
  have hmain := @Declaration.Renders.mk "main" _ _ _ [] _ default default default default
    (.mk .nothing .nothing) hbody
  have hrest := @Program.Renders.cons _ _ [.lineFeed] _ _ (by decide) hmain
    (@Program.Renders.nil [] (by simp) default)
  have hall := @Program.Renders.cons _ _ [] _ _ (by simp) hf hrest
  have hspelled : layoutSample.SpelledBy layoutTokens := by
    refine ⟨_, ?_, hall⟩
    rfl
  exact ⟨hnames, hlinked, hspelled, (parse_roundTrip hnames hlinked).2 _ hspelled⟩

end Program
end ProcLang
