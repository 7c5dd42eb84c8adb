import ProcLang.Proofs.Faithfulness

/-!
# Names inside of functions

In the text of a function parameters, temporaries and labels share one space of names. They never
clash: a parameter has the name that it had in the source, which is a word without a point; the
names of temporaries and labels have a point and a number behind it, and no label starts as a
temporary does.

## Main definitions

* `IR.Function.localNames` — the names in the text of a function that mean something in it alone.

## Main statements

* `IR.Function.nodup_localNames` — what keeps the local names of a function apart.
* `Program.nodup_localNames_of_lower` — local names of functions that come from a source.
-/
namespace ProcLang
namespace IR

/-- The local names in the text of a function: those of its parameters, of the values that its
instructions define, and of its blocks. All of them are written behind a percent sign. -/
def Function.localNames (f : Function) : List String :=
  f.params.map (fun p => (⟨.param p.1, p.2⟩ : Value).text) ++
    ((f.blocks.flatMap (·.instrs)).filterMap (·.result)).map Value.text ++
    f.blocks.map ("%" ++ ·.label)

/-! ## Labels -/

/-- A temporary is named as a block would be whose label started with `tmp`. -/
theorem Value.text_temp (n : Nat) (ty : Ty) :
    (Value.mk (.temp n) ty).text = "%" ++ blockLabel "tmp" n := by
  apply String.toList_inj.mp
  rw [toList_text_temp, String.toList_append, toList_blockLabel]
  rfl

/-- The labels of a flow start as lowering has them start. -/
theorem Flow.exists_base (g : Flow) (n : Nat) (exit : Option Terminator) :
    ∀ b ∈ g.blocks n exit,
      ∃ base ∈ "if.true" :: "if.next" :: g.bases, ∃ i, b.label = blockLabel base i := by
  induction g generalizing n exit with
  | fall | ret => intro b hb; cases hb
  | emit i rest ih => exact ih n exit
  | bind k value rest ih => exact ih n exit
  | when cond yes rest ihy ihr =>
    intro b hb
    simp only [blocks, List.mem_append, List.mem_cons] at hb
    rcases hb with (rfl | hb) | rfl | hb
    · exact ⟨"if.true", by simp, n, rfl⟩
    · obtain ⟨base, hbase, hlabel⟩ := ihy _ _ b hb
      exact ⟨base, by grind [bases], hlabel⟩
    · exact ⟨"if.next", by simp, _, rfl⟩
    · obtain ⟨base, hbase, hlabel⟩ := ihr _ _ b hb
      exact ⟨base, by grind [bases], hlabel⟩
  | either cond yes first no rest ihy ihn ihr =>
    intro b hb
    simp only [blocks, List.mem_append, List.mem_cons] at hb
    rcases hb with ((rfl | hb) | rfl | rfl | hb) | hb
    · exact ⟨"if.true", by simp, n, rfl⟩
    · obtain ⟨base, hbase, hlabel⟩ := ihy _ _ b hb
      exact ⟨base, by grind [bases], hlabel⟩
    · exact ⟨"if.next", by simp, _, rfl⟩
    · exact ⟨first, by simp [bases], _, rfl⟩
    · obtain ⟨base, hbase, hlabel⟩ := ihn _ _ b hb
      exact ⟨base, by grind [bases], hlabel⟩
    · obtain ⟨base, hbase, hlabel⟩ := ihr _ _ b hb
      exact ⟨base, by grind [bases], hlabel⟩

/-- A word without a point is no label and names no temporary. -/
theorem ne_blockLabel_of_isName {name : String} (h : IsName name) (base : String) (i : Nat) :
    name ≠ blockLabel base i := by
  rintro rfl
  exact h.2 (by simp [toList_blockLabel])

/-! ## Functions -/

namespace Function

variable {f : Function}

/-- The local names of a function whose temporaries are numbered without gaps. -/
theorem perm_localNames (hdefined : f.defined.Perm ((List.range f.temps).map .temp)) :
    f.localNames.Perm ((f.params.map Prod.fst ++ ((List.range f.temps).map (blockLabel "tmp") ++
      f.blocks.map (·.label))).map ("%" ++ ·)) := by
  generalize hrs : (f.blocks.flatMap (·.instrs)).filterMap (·.result) = rs
  have hkinds : f.defined = rs.map (·.kind) := by
    rw [← hrs, List.map_filterMap]
    rfl
  rw [hkinds] at hdefined
  -- The type of a temporary is not part of its name.
  have htext : rs.map Value.text = (rs.map (·.kind)).map fun k => (Value.mk k .void).text := by
    rw [List.map_map]
    refine List.map_congr_left fun v hv => ?_
    obtain ⟨n, -, hn⟩ := List.mem_map.mp (hdefined.mem_iff.mp (List.mem_map_of_mem hv))
    obtain ⟨kind, ty⟩ := v
    obtain rfl : Value.Kind.temp n = kind := hn
    rfl
  have htemps : (rs.map Value.text).Perm
      ((List.range f.temps).map fun i => "%" ++ blockLabel "tmp" i) := by
    rw [htext]
    refine (hdefined.map _).trans (.of_eq ?_)
    simp [Value.text_temp]
  simp only [localNames, hrs, List.append_assoc, List.map_append, List.map_map]
  exact .append_left _ (htemps.append_right _)

/-- Local names are apart if parameters and labels are among themselves, parameters have names,
temporaries are numbered without gaps, and no label starts as a temporary does. -/
theorem nodup_localNames (hparams : (f.params.map Prod.fst).Nodup)
    (hnames : ∀ p ∈ f.params, IsName p.1)
    (hdefined : f.defined.Perm ((List.range f.temps).map .temp))
    (hlabels : (f.blocks.map (·.label)).Nodup)
    (hbases : ∀ b ∈ f.blocks, ∃ base i, b.label = blockLabel base i ∧ base ≠ "tmp") :
    f.localNames.Nodup := by
  have hpercent : Function.Injective ("%" ++ · : String → String) := fun s t h => by simpa using h
  have htemps : ((List.range f.temps).map (blockLabel "tmp")).Nodup :=
    List.nodup_range.map fun i j h => (blockLabel_inj h).2
  rw [(perm_localNames hdefined).nodup_iff, List.nodup_map_iff hpercent]
  refine List.nodup_append.mpr ⟨hparams, List.nodup_append.mpr ⟨htemps, hlabels, ?_⟩, ?_⟩
  · intro name hname label hlabel heq
    obtain ⟨i, -, rfl⟩ := List.mem_map.mp hname
    obtain ⟨b, hb, rfl⟩ := List.mem_map.mp hlabel
    obtain ⟨base, j, hbase, hne⟩ := hbases b hb
    exact hne (blockLabel_inj (heq.trans hbase)).1.symm
  · intro name hname other hother heq
    obtain ⟨p, hp, rfl⟩ := List.mem_map.mp hname
    obtain ⟨base, i, rfl⟩ : ∃ base i, other = blockLabel base i := by
      rcases List.mem_append.mp hother with ht | hl
      · obtain ⟨i, -, rfl⟩ := List.mem_map.mp ht
        exact ⟨"tmp", i, rfl⟩
      · obtain ⟨b, hb, rfl⟩ := List.mem_map.mp hl
        obtain ⟨base, i, hbase, -⟩ := hbases b hb
        exact ⟨base, i, hbase⟩
    exact ne_blockLabel_of_isName (hnames p hp) base i heq

/-- Local names of the function of a typed flow. -/
theorem nodup_localNames_ofFlow {E : Env} {g : Flow} (hg : g.Typed E 0 .empty g.defs)
    (hparams : (E.params.map Prod.fst).Nodup) (hnames : ∀ p ∈ E.params, IsName p.1)
    (hbases : ∀ base ∈ g.bases, base ≠ "tmp") (name : String) :
    (ofFlow name E.ret E.params g).localNames.Nodup := by
  refine nodup_localNames hparams hnames (singleAssignment_ofFlow hg name).defined
    (labelled_ofFlow name E.ret E.params g).nodup (List.forall_mem_cons.mpr ⟨?_, ?_⟩)
  · exact ⟨"entry", 0, entryLabel_eq, by decide⟩
  · intro b hb
    obtain ⟨base, hbase, i, hlabel⟩ := g.exists_base 1 _ b hb
    refine ⟨base, i, hlabel, ?_⟩
    simp only [List.mem_cons] at hbase
    rcases hbase with rfl | rfl | hbase
    · decide
    · decide
    · exact hbases base hbase

end Function
end IR

/-! ## Programs -/

namespace Program

/-- In every function of a module that comes from a source text, the names of parameters,
temporaries and blocks are different from each other. -/
theorem nodup_localNames_of_lower {source name : String} {ts : List Token} {p : Program}
    {m : IR.Module} (hlex : lex source = .ok ts) (hparse : Program.parse ts = .ok p)
    (hlower : p.lower name = .ok m) : ∀ f ∈ m.functions, f.localNames.Nodup := by
  intro f hf
  obtain ⟨d, hd, g, hg, rfl⟩ := exists_lowersTo hlower hf
  have hnames : ∀ q ∈ d.irParams, IsName q.1 := ((named_of_parse hlex hparse).env hd).params
  have hparams : (d.irParams.map Prod.fst).Nodup := by
    simpa [Declaration.irParams, Function.comp_def] using hg.1
  have hbases : ∀ base ∈ g.bases, base ≠ "tmp" := by
    obtain ⟨-, body, S', n', hbody, rfl⟩ := hg
    rw [IR.Flow.bases_bindParams]
    intro base hbase
    have hmem := hbody.bases_subset hbase
    rintro rfl
    exact absurd hmem (by decide)
  exact IR.Function.nodup_localNames_ofFlow hg.typed hparams hnames hbases d.name

/-- Parameters that are named as temporaries and labels start. -/
theorem nodup_localNames_sample : ∃ ts p m,
    lex "f :: i32 entry, i32 tmp \x7b if entry > tmp \x7b return \x7d \x7d" = .ok ts ∧
    Program.parse ts = .ok p ∧ p.lower "sample" = .ok m ∧
    ∀ f ∈ m.functions, f.localNames.Nodup := by
  have hsome : (moduleText? "sample"
      "f :: i32 entry, i32 tmp \x7b if entry > tmp \x7b return \x7d \x7d").isSome = true := by
    decide +kernel
  obtain ⟨text, htext⟩ := Option.isSome_iff_exists.mp hsome
  obtain ⟨ts, p, m, hlex, hparse, hlower, -⟩ := exists_of_moduleText? htext
  exact ⟨ts, p, m, hlex, hparse, hlower, nodup_localNames_of_lower hlex hparse hlower⟩

end Program
end ProcLang
