import BlockFlow.Proofs.Ssa.Placement
import Mathlib.Tactic.IntervalCases

/-!
# Versions along routes

Renaming goes down the dominator tree, control goes along branches, and the two meet: on every route
through the graph, each version that is read is the one that was defined last on that route
(`Graph.exists_toSsa_reads_last`).

What is visible where renaming comes to a block (`Ssa.Incoming`) are the versions defined along the
tree from the entry down to it.  A route comes to the block from one of its predecessors instead.
If the block has a phi for a variable, the phi is the last definition either way.  If it has none,
then no block on the tree between the predecessor and the immediate dominator defines the variable,
since the block would be in its frontier; so the end of the predecessor and the end of the immediate
dominator agree on the variable (`Ssa.Renamed.latest_pred`).  The rest is an induction on the route.
-/

namespace BlockFlow

namespace SsaFunction

/-- The block of a function that stands for a block of the graph. -/
def block? (f : SsaFunction) (i : Nat) : Option SsaBlock :=
  f.blocks.find? fun b => b.id == i

/-- The versions defined, in turn, while control passes blocks of the graph; a phi defines its
version when its block is entered. -/
def executed (f : SsaFunction) (passed : List Nat) : List Version :=
  passed.flatMap fun i => (f.block? i).elim [] SsaBlock.definitions

theorem executed_append {f : SsaFunction} {i : Nat} {b : SsaBlock} (hb : f.block? i = some b)
    (passed : List Nat) : f.executed (passed ++ [i]) = f.executed passed ++ b.definitions := by
  rw [executed, executed, List.flatMap_append, List.flatMap_singleton, hb]
  rfl

end SsaFunction

namespace Ssa

open Dominance

/-- The version of a variable that was defined last, of versions defined in turn. -/
def lastDefinition (defined : List Version) (name : String) : Option Version :=
  latest defined.reverse name

/-- Where two lists of versions agree behind the phis of a block, they agree at its end. -/
theorem latest_definitions (b : SsaBlock) {below below' : List Version} {name : String}
    (h : latest ((targets b.phis).reverse ++ below) name =
      latest ((targets b.phis).reverse ++ below') name) :
    latest (b.definitions.reverse ++ below) name =
      latest (b.definitions.reverse ++ below') name := by
  rw [definitions_eq, List.reverse_append, List.append_assoc, List.append_assoc, latest_append, h,
    ← latest_append]

/-- The versions that are visible where renaming comes to a block, the last one first. -/
inductive Incoming (blocks : Array SsaBlock) : Nat → List Version → Prop where
  | entry : Incoming blocks 0 []
  | child {i c : Nat} {visible : List Version} {b : SsaBlock} (h : Incoming blocks i visible)
      (hb : blocks[i]? = some b) (hc : c ∈ b.children) :
      Incoming blocks c (b.definitions.reverse ++ visible)

variable {blocks : Array SsaBlock} {i k : Nat} {visible visible' : List Version}

theorem Incoming.labelled (hroot : Labelled blocks 0 []) (h : Incoming blocks k visible) :
    Labelled blocks k visible := by
  induction h with
  | entry => exact hroot
  | @child i c visible b _ hb hc ih =>
    obtain ⟨hconsistent, hchildren⟩ := ih
    obtain rfl := Option.some.inj (hb.symm.trans hconsistent.block)
    exact hchildren c hc

/-- What is visible at a block was visible at its immediate dominator or is defined there. -/
theorem Incoming.above (hlinked : Linked blocks) (h : Incoming blocks k visible) {up : Nat}
    (hup : (tree (predTable blocks)).of k = some up) :
    ∃ visible' b, Incoming blocks up visible' ∧ blocks[up]? = some b ∧
      visible = b.definitions.reverse ++ visible' := by
  cases h with
  | entry =>
    exact absurd rfl (isIdom_of_of_tree hlinked.connected hup).1
  | @child i _ visible' b h hb hc =>
    obtain rfl := Option.some.inj (((hlinked.mem_children hb).mp hc).symm.trans hup)
    exact ⟨visible', b, h, hb, rfl⟩

theorem Incoming.unique (hlinked : Linked blocks) (h : Incoming blocks k visible)
    (h' : Incoming blocks k visible') : visible = visible' := by
  induction h generalizing visible' with
  | entry =>
    generalize hk : 0 = k at h'
    cases h' with
    | entry => rfl
    | child h hb hc =>
      have hlink := (hlinked.mem_children hb).mp hc
      exact absurd hk.symm (isIdom_of_of_tree hlinked.connected hlink).1
  | @child i c visible b _ hb hc ih =>
    obtain ⟨visible₁, b₁, h₁, hb₁, rfl⟩ := h'.above hlinked ((hlinked.mem_children hb).mp hc)
    obtain rfl := Option.some.inj (hb.symm.trans hb₁)
    rw [ih h₁]

theorem exists_incoming (hlinked : Linked blocks) (hk : k < blocks.size) :
    ∃ visible, Incoming blocks k visible := by
  refine dominated_induction (P := fun k => ∃ visible, Incoming blocks k visible) hlinked.connected
    ⟨[], .entry⟩ ?_ ((size_predTable _).symm ▸ hk) (entry_dominates _ k)
  rintro d c hlink - ⟨visible, hincoming⟩
  have hidom := (isIdom_of_of_tree hlinked.connected hlink).2
  have hd := hlinked.connected.lt_of_dominates (lt_of_of_tree hlink) hidom.dominates
  rw [size_predTable] at hd
  have hb := Array.getElem?_eq_getElem hd
  exact ⟨_, hincoming.child hb ((hlinked.mem_children hb).mpr hlink)⟩

/-! ### Renamed blocks -/

/-- The blocks of a well formed graph after renaming. -/
structure Renamed (g : Graph) (blocks : Array SsaBlock) : Prop where
  wellFormed : g.WellFormed
  shape : SameShape (placed g) blocks
  labelled : Labelled blocks 0 []

/-- A block of a graph, its place, what it has become there, and what is visible before it. -/
structure Stands (g : Graph) (blocks : Array SsaBlock) (i k : Nat) (block : Block) (b : SsaBlock)
    (visible : List Version) : Prop where
  place : (livePlaces g)[k]? = some i
  source : g.blocks[i]? = some block
  renamed : blocks[k]? = some b
  shape : b.erase = (placedBlock g k block).erase
  incoming : Incoming blocks k visible

variable {g : Graph} {name : String}

namespace Stands

variable {block : Block} {b : SsaBlock} (h : Stands g blocks i k block b visible)

include h

theorem erase_eq : b.erase = placedBlock g k block :=
  h.shape.trans (erase_placedBlock g k block)

/-- The instructions of a block are those of the graph, numbers of versions apart. -/
theorem erase_instrs : b.instrs.map Instr.erase = instrsOf g.vars block :=
  congrArg SsaBlock.instrs h.erase_eq

/-- A phi is for a variable of the graph, and has an operand for each predecessor. -/
theorem phi_eq {phi : Instr} (hphi : phi ∈ b.phis) : ∃ name ∈ g.vars,
    (∃ target : Version, target.name = name ∧ phi.target = some target) ∧
      phi.uses.map Version.name = List.replicate b.preds.length name := by
  obtain ⟨_, target, htarget, hname, huses⟩ := exists_target_of_mem_phis h.shape hphi
  exact ⟨target.name, (mem_phiNames_iff.mp hname).1, ⟨target, rfl, htarget⟩, huses⟩

end Stands

namespace Renamed

variable (h : Renamed g blocks)

include h

theorem listed : g.Listed :=
  h.wellFormed.listed

theorem linked : Linked blocks :=
  (linked_placed h.listed).congr h.shape

/-- Every place holds a block. -/
theorem exists_stands_of_incoming (hincoming : Incoming blocks k visible) {b : SsaBlock}
    (hb : blocks[k]? = some b) : ∃ i block, Stands g blocks i k block b visible := by
  obtain ⟨b', hb', herase⟩ := h.shape.symm.exists_get hb
  obtain ⟨i, block, hk, hblock, rfl⟩ := exists_place h.listed hb'
  exact ⟨i, block, hk, hblock, hb, herase.symm, hincoming⟩

/-- A block that a route leads to stands somewhere. -/
theorem exists_stands {passed : List Nat} (hroute : g.Route passed i) :
    ∃ k block b visible, Stands g blocks i k block b visible := by
  obtain ⟨k, hk⟩ := (exists_place_iff h.listed).mpr ⟨passed, hroute⟩
  obtain ⟨block, hblock⟩ := exists_block_of_place h.listed hk
  obtain ⟨b, hb, herase⟩ := h.shape.exists_get (getElem?_placed h.listed hk hblock)
  obtain ⟨visible, hincoming⟩ :=
    exists_incoming h.linked (Array.getElem?_eq_some_iff.mp hb).1
  exact ⟨k, block, b, visible, hk, hblock, hb, herase, hincoming⟩

/-- The first place holds the entry. -/
theorem id_eq_zero {block : Block} {b : SsaBlock} (hstands : Stands g blocks i 0 block b visible) :
    block.id = 0 := by
  have hplace := (livePlaces_zero h.listed).symm.trans hstands.place
  exact (h.wellFormed.id_eq hstands.source).trans (Option.some.inj hplace).symm

/-- At the end of a block every variable of the graph is visible. -/
theorem mem_visible_end (hincoming : Incoming blocks k visible) {b : SsaBlock}
    (hb : blocks[k]? = some b) (hname : name ∈ g.vars) :
    name ∈ (b.definitions.reverse ++ visible).map Version.name := by
  induction hincoming generalizing b with
  | entry =>
    obtain ⟨i, block, hstands⟩ := h.exists_stands_of_incoming .entry hb
    rw [List.append_nil, List.map_reverse, List.mem_reverse, definitions_eq, List.map_append,
      List.mem_append, names_targets_of_erase (SsaBlock.instrs_erase_of_erase hstands.shape)]
    exact .inr (mem_targets_entry (h.id_eq_zero hstands) hname)
  | child _ hb' _ ih =>
    rw [List.map_append, List.mem_append]
    exact .inr (ih hb')

theorem mem_visible (hincoming : Incoming blocks k visible) (hk : k ≠ 0) (hname : name ∈ g.vars) :
    name ∈ visible.map Version.name := by
  cases hincoming with
  | entry => exact absurd rfl hk
  | child hincoming hb _ => exact h.mem_visible_end hincoming hb hname

/-- **A predecessor and the immediate dominator agree** on every variable for which a block has no
phi: what is last defined at the end of the predecessor is what renaming sees at the block. -/
theorem latest_pred {y p : Nat} {block : Block} {b bp : SsaBlock} {vy vp : List Version}
    (hname : name ∈ g.vars) (hy : Stands g blocks i y block b vy) (hy0 : y ≠ 0)
    (hphi : name ∉ (targets b.phis).map Version.name) (hp : p ∈ b.preds)
    (hbp : blocks[p]? = some bp) (hvp : Incoming blocks p vp) :
    latest (bp.definitions.reverse ++ vp) name = latest vy name := by
  have hlinked := h.linked
  have hpreds := h.shape.predTable_eq
  have hylt : y < (predTable blocks).size := by
    rw [size_predTable]
    exact (Array.getElem?_eq_some_iff.mp hy.renamed).1
  obtain ⟨d, hd, _⟩ := exists_idomOf hlinked.connected hylt hy0
  rw [← of_tree hylt] at hd
  obtain ⟨vd, bd, hvd, hbd, hvy⟩ := hy.incoming.above hlinked hd
  -- Both ends are compared with what is visible at the block, which comes from its dominator.
  refine frontier_induction (y := y) (p := p)
    (P := fun c => ∀ v b, blocks[c]? = some b → Incoming blocks c v →
      latest (b.definitions.reverse ++ v) name = latest vy name)
    hlinked.connected ?_ hd ?_ ?_ vp bp hbp hvp
  · intro v b hb hv
    obtain rfl := Option.some.inj (hb.symm.trans hbd)
    rw [hv.unique hlinked hvd, hvy]
  · intro c up hfrontier hup ih v b hb hv
    obtain ⟨v', b', hv', hb', rfl⟩ := hv.above hlinked hup
    -- A definition of the variable here would have put a phi at the block.
    have hnone : latest b.definitions.reverse name = none := by
      rw [latest_eq_none_iff]
      intro version hversion hversionName
      obtain ⟨ic, blockc, hc⟩ := h.exists_stands_of_incoming hv hb
      refine hphi ?_
      rw [names_targets_of_erase (SsaBlock.phis_erase_of_erase hy.shape)]
      refine mem_phis_of_mem_frontier h.listed hname hc.place hc.source ?_ (hpreds ▸ hfrontier)
      rw [← names_definitions_of_erase hc.shape, ← hversionName]
      exact List.mem_map_of_mem (List.mem_reverse.mp hversion)
    rw [latest_append, hnone, Option.none_or]
    exact ih v' b' hb' hv'
  · rw [of_predTable hy.renamed]
    exact hp

theorem block?_eq {block : Block} {b : SsaBlock} (hstands : Stands g blocks i k block b visible) :
    SsaFunction.block? ⟨g.vars, blocks⟩ i = some b := by
  have hid : b.id = i := (SsaBlock.id_eq_of_erase hstands.shape).trans
    (h.wellFormed.id_eq hstands.source)
  obtain ⟨hlt, hget⟩ := Array.getElem?_eq_some_iff.mp hstands.renamed
  refine Array.find?_eq_some_iff_getElem.mpr ⟨by simp [hid], k, hlt, hget, fun j hj => ?_⟩
  -- No other place holds a block of this number.
  have hjlt : j < blocks.size := Nat.lt_trans hj hlt
  obtain ⟨b₀, hb₀, herase⟩ := h.shape.symm.exists_get (Array.getElem?_eq_getElem hjlt)
  obtain ⟨i', block', hj', hblock', rfl⟩ := exists_place h.listed hb₀
  have hid' : blocks[j].id = i' := (SsaBlock.id_eq_of_erase herase).symm.trans
    (h.wellFormed.id_eq hblock')
  have hne : i' ≠ i := by
    rintro rfl
    exact absurd (place_unique hj' hstands.place) (Nat.ne_of_lt hj)
  simp [hid', hne]

/-- **What was defined last on a route is what renaming sees**, at the instructions of the block
that the route has come to. -/
theorem latest_route {passed : List Nat} (hroute : g.Route passed i) (hname : name ∈ g.vars)
    {block : Block} {b : SsaBlock} (hstands : Stands g blocks i k block b visible) :
    latest ((targets b.phis).reverse ++
        (SsaFunction.executed ⟨g.vars, blocks⟩ passed).reverse) name =
      latest ((targets b.phis).reverse ++ visible) name := by
  induction hroute generalizing k block b visible with
  | entry =>
    have hk := place_unique hstands.place (livePlaces_zero h.listed)
    subst hk
    rw [hstands.incoming.unique h.linked .entry]
    rfl
  | @step passed j i hroute hi ih =>
    obtain ⟨kj, blockj, bj, vj, hj⟩ := h.exists_stands hroute
    rw [SsaFunction.executed_append (h.block?_eq hj), List.reverse_append]
    by_cases hphi : name ∈ (targets b.phis).map Version.name
    · -- The phi that the block has is the last definition in either case.
      have hmem : name ∈ (targets b.phis).reverse.map Version.name := by
        rw [List.map_reverse]
        exact List.mem_reverse.mpr hphi
      obtain ⟨v, hv⟩ := exists_latest hmem
      rw [latest_append, latest_append (targets b.phis).reverse visible, hv, Option.some_or,
        Option.some_or]
    · have hpred : kj ∈ b.preds := by
        rw [SsaBlock.preds_eq_of_erase hstands.shape]
        exact mem_preds_of_mem_successors h.listed hj.place hstands.source hi
      have hk0 : k ≠ 0 := by
        rintro rfl
        have hplace := (livePlaces_zero h.listed).symm.trans hstands.place
        exact h.wellFormed.entry j (Option.some.inj hplace ▸ hi)
      have hagree := h.latest_pred hname hstands hk0 hphi hpred hj.renamed hj.incoming
      rw [latest_append, latest_append (targets b.phis).reverse visible, ← hagree,
        latest_definitions bj (ih hj)]

/-- The same at the end of the block. -/
theorem latest_end {passed : List Nat} (hroute : g.Route passed i) (hname : name ∈ g.vars)
    {block : Block} {b : SsaBlock} (hstands : Stands g blocks i k block b visible) :
    lastDefinition (SsaFunction.executed ⟨g.vars, blocks⟩ (passed ++ [i])) name =
      latest (b.definitions.reverse ++ visible) name := by
  rw [lastDefinition, SsaFunction.executed_append (h.block?_eq hstands), List.reverse_append]
  exact latest_definitions b (h.latest_route hroute hname hstands)

/-- Every instruction reads what was defined last before it. -/
theorem reads_last {passed : List Nat} (hroute : g.Route passed i) {block : Block} {b : SsaBlock}
    (hstands : Stands g blocks i k block b visible) {before after : List Instr} {instr : Instr}
    (heq : b.instrs = before ++ instr :: after) {use : Version} (huse : use ∈ instr.uses) :
    lastDefinition (SsaFunction.executed ⟨g.vars, blocks⟩ passed ++ targets b.phis ++
      targets before) use.name = some use := by
  obtain ⟨hconsistent, _⟩ := hstands.incoming.labelled h.labelled
  obtain rfl := Option.some.inj (hstands.renamed.symm.trans hconsistent.block)
  have hreads := hconsistent.reads
  rw [heq] at hreads
  have hcurrent : Current ((targets before).reverse ++ ((targets b.phis).reverse ++ visible)) use :=
    (hreads.behind before).1 use huse
  have hinstrs := hstands.erase_instrs
  rw [heq, List.map_append, List.map_cons] at hinstrs
  have huse' : use.erase ∈ instr.erase.uses := List.mem_map_of_mem huse
  have hname : use.name ∈ g.vars := by
    have hinstr : instr.erase ∈ instrsOf g.vars block :=
      hinstrs ▸ List.mem_append_right _ List.mem_cons_self
    have hvar := mem_vars_of_mem_uses h.wellFormed hstands.source hinstr huse'
    exact hvar
  have hvisible : use.name ∈
      ((targets before).reverse ++ ((targets b.phis).reverse ++ visible)).map Version.name := by
    rw [List.map_append, List.map_append, List.mem_append, List.mem_append]
    by_cases hk : k = 0
    · -- Nothing is visible above the entry, but it defines all variables first.
      have hid := h.id_eq_zero (hk ▸ hstands)
      have hbefore := mem_targets_before hid hinstrs.symm huse' hname
      rw [targets_erase, List.map_map] at hbefore
      left
      rw [List.map_reverse, List.mem_reverse]
      exact hbefore
    · exact .inr (.inr (h.mem_visible hstands.incoming hk hname))
  -- Behind the phis the route and the tree agree, and the instructions before are the same.
  rw [lastDefinition, List.reverse_append, List.reverse_append, latest_append,
    h.latest_route hroute hname hstands, ← latest_append]
  exact hcurrent.latest_eq hvisible

/-- Every operand of a phi is what was defined last on the way from its predecessor. -/
theorem phi_last {passed : List Nat} {p : Nat} (hroute : g.Route passed p)
    (hi : i ∈ g.successors p) {block : Block} {b : SsaBlock}
    (hstands : Stands g blocks i k block b visible) {j : Nat} (hj : (g.livePreds i)[j]? = some p)
    {phi : Instr} (hphi : phi ∈ b.phis) :
    ∃ target use, phi.target = some target ∧ phi.uses[j]? = some use ∧
      lastDefinition (SsaFunction.executed ⟨g.vars, blocks⟩ (passed ++ [p])) target.name =
        some use := by
  obtain ⟨kp, blockp, bp, vp, hp⟩ := h.exists_stands hroute
  obtain ⟨name, hname, ⟨target, htargetName, htarget⟩, huses⟩ := hstands.phi_eq hphi
  -- The operand at the place that the predecessor has among the predecessors.
  have hpreds : b.preds[j]? = some kp := by
    rw [SsaBlock.preds_eq_of_erase hstands.shape]
    exact getElem?_preds h.listed hstands.source hj hp.place
  have hidx : b.preds.idxOf? kp = some j := by
    refine (idxOf?_eq_some_iff ?_).mpr hpreds
    rw [SsaBlock.preds_eq_of_erase hstands.shape]
    exact nodup_preds h.wellFormed hstands.source
  obtain ⟨use, huse, huseName⟩ : ∃ use, phi.uses[j]? = some use ∧ use.name = name := by
    have hget := congrArg (fun names : List String => names[j]?) huses
    simp only [List.getElem?_map, List.getElem?_replicate] at hget
    rw [if_pos (List.getElem?_eq_some_iff.mp hpreds).1] at hget
    exact Option.map_eq_some_iff.mp hget
  have htold : some use ∈ told blocks kp k := by
    rw [told, hstands.renamed, Option.map_some, Option.getD_some, SsaBlock.operands]
    refine List.mem_map.mpr ⟨phi, hphi, ?_⟩
    rw [hidx, Option.bind_some, huse]
  -- The predecessor has told it what was visible at its end.
  obtain ⟨hconsistent, _⟩ := hp.incoming.labelled h.labelled
  obtain rfl := Option.some.inj (hp.renamed.symm.trans hconsistent.block)
  have hsucc : k ∈ bp.succs := by
    rw [SsaBlock.succs_eq_of_erase hp.shape]
    refine List.mem_filterMap.mpr
      ⟨i, ?_, (idxOf?_eq_some_iff (nodup_livePlaces g)).mpr hstands.place⟩
    rw [Graph.successors, hp.source] at hi
    exact hi
  have hcurrent := hconsistent.tells k hsucc use htold
  refine ⟨target, use, htarget, huse, ?_⟩
  rw [htargetName, h.latest_end hroute hname hp, ← huseName]
  exact hcurrent.latest_eq (h.mem_visible_end hp.incoming hp.renamed (huseName ▸ hname))

end Renamed

theorem exists_renamed (h : g.WellFormed) :
    ∃ blocks, g.toSsa = .ok ⟨g.vars, blocks⟩ ∧ Renamed g blocks := by
  obtain ⟨blocks, htoSsa, hshape, hlabelled⟩ := exists_toSsa h.listed
  exact ⟨blocks, htoSsa, h, hshape, hlabelled⟩

end Ssa

namespace Graph

open Ssa

/-- **Versions are right along every route.**  The static single assignment form of a well formed
graph exists and has, numbers of versions apart, the instructions of the graph.  On every route,
each version that an instruction reads is the version of its variable defined last before it on that
route, the phis of the block included; and when the route enters a block from the `j`-th of its
predecessors that can be reached, the `j`-th operand of every phi there is the version of the phi's
variable defined last before the block was entered. -/
theorem exists_toSsa_reads_last {g : Graph} (h : g.WellFormed) :
    ∃ f, g.toSsa = .ok f ∧ ∀ passed i, g.Route passed i →
      ∃ block b, g.blocks[i]? = some block ∧ f.block? i = some b ∧
        b.instrs.map Instr.erase = instrsOf g.vars block ∧
        (∀ before instr after, b.instrs = before ++ instr :: after → ∀ use ∈ instr.uses,
          lastDefinition (f.executed passed ++ targets b.phis ++ targets before) use.name =
            some use) ∧
        ∀ p, passed.getLast? = some p → p ∈ g.livePreds i ∧
          ∀ j : Nat, (g.livePreds i)[j]? = some p → ∀ phi ∈ b.phis,
            ∃ target use, phi.target = some target ∧ phi.uses[j]? = some use ∧
              lastDefinition (f.executed passed) target.name = some use := by
  obtain ⟨blocks, htoSsa, hrenamed⟩ := exists_renamed h
  refine ⟨⟨g.vars, blocks⟩, htoSsa, fun passed i hroute => ?_⟩
  obtain ⟨k, block, b, visible, hstands⟩ := hrenamed.exists_stands hroute
  refine ⟨block, b, hstands.source, hrenamed.block?_eq hstands, hstands.erase_instrs,
    fun before instr after heq use huse => hrenamed.reads_last hroute hstands heq huse, ?_⟩
  intro p hp
  cases hroute with
  | entry => cases hp
  | @step passed q _ hroute hi =>
    rw [List.getLast?_concat] at hp
    obtain rfl := Option.some.inj hp
    refine ⟨?_, fun j hj phi hphi => hrenamed.phi_last hroute hi hstands hj hphi⟩
    rw [livePreds, hstands.source]
    refine List.mem_filter.mpr ⟨(h.mem_preds hstands.source _).mpr hi, ?_⟩
    rw [List.contains_iff_mem, mem_reachable_iff h.targets h.nonempty]
    exact ⟨passed, hroute⟩

/-- A graph that adds the numbers from `n` down to one, in a loop. -/
def summing : Graph where
  vars := ["n", "s"]
  blocks := #[
    ⟨0, "entry", [], some (.jump 1), []⟩,
    ⟨1, "while.cond", [], some (.branch (.load "n") 2 3), [0, 2]⟩,
    ⟨2, "while.body", [⟨"s", .binary .add (.load "s") (.load "n")⟩,
      ⟨"n", .binary .sub (.load "n") (.const 1)⟩], some (.jump 1), [1]⟩,
    ⟨3, "while.end", [], some (.ret (.load "s")), [1]⟩]

theorem wellFormed_summing : summing.WellFormed := by
  have hlt : ∀ {i : Nat} {b : Block}, summing.blocks[i]? = some b → i < 4 :=
    fun hb => (Array.getElem?_eq_some_iff.mp hb).1
  have hnone : ∀ i, ¬ i < 4 → summing.successors i = [] := by
    intro i hi
    have hget : summing.blocks[i]? = none := Array.getElem?_eq_none (Nat.le_of_not_lt hi)
    rw [successors, hget]
  refine ⟨by decide, ?_, ?_, ?_, ?_, ?_, ?_⟩
  · intro i b hb
    have hi := hlt hb
    interval_cases i <;> cases hb <;> rfl
  · intro i
    by_cases hi : i < 4
    · interval_cases i <;> decide
    · rw [hnone i hi]
      decide
  · intro i
    by_cases hi : i < 4
    · interval_cases i <;> decide
    · rw [hnone i hi]
      decide
  · intro i b hb
    have hi := hlt hb
    interval_cases i <;> cases hb <;> decide
  · intro i b hb p
    have hi := hlt hb
    by_cases hp : p < 4
    · interval_cases i <;> cases hb <;> interval_cases p <;> decide
    · have hpreds : ∀ q ∈ b.preds, q < 4 := by
        interval_cases i <;> cases hb <;> decide
      rw [hnone p hp]
      exact ⟨fun hmem => absurd (hpreds p hmem) hp, fun hmem => by cases hmem⟩
  · intro i stores term hbody
    have hi : i < 4 := by
      obtain ⟨b, hb, _⟩ := Option.map_eq_some_iff.mp hbody
      exact hlt hb
    interval_cases i <;> cases hbody <;>
      simp [Store.Within, Expr.loads, Terminator.loads, summing]

/-- Returning after one round of the loop, the sum that is read is the one defined last on that way;
and coming back to the test of the loop, the phis there read what was defined last in the body. -/
theorem summing_reads_last :
    ∃ f test exit sum, summing.toSsa = .ok f ∧ f.block? 1 = some test ∧ f.block? 3 = some exit ∧
      exit.instrs = [⟨.ret, none, [sum]⟩] ∧
      lastDefinition (f.executed [0, 1, 2, 1] ++ targets exit.phis) "s" = some sum ∧
      ∀ phi ∈ test.phis, ∃ target use, phi.target = some target ∧ phi.uses[1]? = some use ∧
        lastDefinition (f.executed [0, 1, 2]) target.name = some use := by
  obtain ⟨f, htoSsa, hroutes⟩ := exists_toSsa_reads_last wellFormed_summing
  have hback : summing.Route [0, 1, 2] 1 :=
    .step (.step (.step .entry (by decide)) (by decide)) (by decide)
  obtain ⟨_, test, _, htest, _, _, hphis⟩ := hroutes [0, 1, 2] 1 hback
  obtain ⟨block, exit, hblock, hexit, hinstrs, hreads, _⟩ :=
    hroutes [0, 1, 2, 1] 3 (.step hback (by decide))
  cases hblock
  have hret : exit.instrs.map Instr.erase = [⟨.ret, none, [⟨"s", 0⟩]⟩] := hinstrs
  obtain ⟨⟨kind, target, uses⟩, hexitInstrs, herase⟩ := List.map_eq_singleton_iff.mp hret
  obtain ⟨hkind, htarget, huses⟩ := Instr.mk.inj herase
  obtain ⟨sum, hsum, hsumErase⟩ := List.map_eq_singleton_iff.mp huses
  rw [Option.map_eq_none_iff] at htarget
  simp only at hkind htarget hsum
  rw [hkind, htarget, hsum] at hexitInstrs
  have hlast := hreads [] _ [] hexitInstrs sum (List.mem_singleton.mpr rfl)
  have hname : sum.name = "s" := congrArg Version.name hsumErase
  rw [show targets [] = [] from rfl, List.append_nil, hname] at hlast
  exact ⟨f, test, exit, sum, htoSsa, htest, hexit, hexitInstrs, hlast,
    (hphis 2 rfl).2 1 (by decide)⟩

end Graph

end BlockFlow
