import Mathlib
import Treeshake.Output.Wrapper
import Treeshake.Proofs.Graph.Capture
import Treeshake.Proofs.Graph.Distinct
import Treeshake.Proofs.Graph.Shown
/-!
The exports of an output. What the entry exports is flagged, and nothing else is. Main statement: an output that
is no module itself reaches an export that is assigned to through a property of its exports, which has the name of
the binding, whatever name it is exported under, and which the wrapper only provides if it shows exports by name.
-/
set_option autoImplicit false

namespace Treeshake

def Wrapper.parameters (w : Wrapper) : List String := w.withExports "exports" w.externalNames

theorem Wrapper.factory_eq (w : Wrapper) :
    w.factory = "function (" ++ commas w.parameters ++ r") {" ++ w.strict ++ "\n\n" := rfl

namespace Graph

variable {R : List Routes} {n : Nat} {g₀ g h k : Graph}

def property (name : String) : String :=
  if name == "default" then "exports['default']" else "exports." ++ name

/-- The assignment that shows an export, unless the output calls it by its property anyway. -/
def assignment? (g : Graph) (e : String × Nat) : Option String :=
  if property e.1 == g.renderName e.2 false then none
  else some (property e.1 ++ " = " ++ g.renderName e.2 false ++ ";")

theorem exportBlock_named (g : Graph) (mechanism : String) :
    g.exportBlock .named mechanism = "\n".intercalate (g.entryExports.filterMap g.assignment?) := by
  have hproperty : ∀ name, "exports" ++ (if name == "default" then "['default']" else "." ++ name) =
      property name := by
    intro name
    rw [property]
    split
    · rfl
    · exact (String.append_assoc ..).symm
  rw [exportBlock]
  refine congrArg (fun f => "\n".intercalate (g.entryExports.filterMap f)) (funext fun e => ?_)
  dsimp only
  rw [hproperty]
  rfl

def isExported (g : Graph) (id : Nat) : Bool := (g.declarations[id]?).any (·.exported)

theorem isExported_modifyDeclaration {id : Nat} {f : Declaration → Declaration}
    (hf : ∀ d, (f d).exported = d.exported) (j : Nat) : (g.modifyDeclaration id f).isExported j = g.isExported j := by
  rw [isExported, isExported, modifyDeclaration, getElem?_modify_eq]
  split
  · cases g.declarations[j]? <;> simp [hf]
  · rfl

theorem Tweak.flags (ht : Tweak g h) :
    h.entryExports = g.entryExports ∧ ∀ id, h.isExported id = g.isExported id := by
  cases ht with
  | push d hd _ =>
    refine ⟨rfl, fun id => ?_⟩
    rw [isExported, isExported, Graph.push, List.getElem?_append]
    split
    · rfl
    · next hlength =>
      rw [List.getElem?_eq_none (Nat.le_of_not_lt hlength)]
      cases id - g.declarations.length with
      | zero => exact hd
      | succ => rfl
  | declaration id f hf => exact ⟨rfl, isExported_modifyDeclaration fun d => (hf d).exported⟩
  | external | whole | value | global => exact ⟨rfl, fun _ => rfl⟩

theorem Tweaks.flags (ht : Tweaks g h) :
    h.entryExports = g.entryExports ∧ ∀ id, h.isExported id = g.isExported id := by
  induction ht with
  | refl => exact ⟨rfl, fun _ => rfl⟩
  | tail _ hstep ih =>
    obtain ⟨hexports, hflags⟩ := hstep.flags
    exact ⟨hexports.trans ih.1, fun id => (hflags id).trans (ih.2 id)⟩

theorem Changes.flags (hc : Changes g h) :
    h.entryExports = g.entryExports ∧ ∀ id, h.isExported id = g.isExported id := by
  induction hc with
  | refl => exact ⟨rfl, fun _ => rfl⟩
  | tail _ hstep ih =>
    cases hstep with
    | tweak ht =>
      obtain ⟨hexports, hflags⟩ := ht.flags
      exact ⟨hexports.trans ih.1, fun id => (hflags id).trans (ih.2 id)⟩
    | stars | references => exact ih

/-- What the entry exports as far as it is marked is what is flagged. -/
structure Exposes (g : Graph) : Prop where
  known : ∀ name id, g.entryExports.get? name = some id → name ∈ g.exportNames entry
  traced : ∀ name id, g.entryExports.get? name = some id → ∀ h, Later g h →
    (traceExport (.inside entry) name entry).run h = .ok (id, h)
  flagged : ∀ id, g.isExported id = true ↔ ∃ name, g.entryExports.get? name = some id

theorem Exposes.later (he : Exposes g) (hl : Later g h) (hexports : h.entryExports = g.entryExports)
    (hflags : ∀ id, h.isExported id = g.isExported id) : Exposes h where
  known name id hid := by
    rw [exportNames_congr hl.routes]
    exact he.known name id (hexports ▸ hid)
  traced name id hid k hk := he.traced name id (hexports ▸ hid) k (hl.trans hk)
  flagged id := by rw [hflags, hexports, he.flagged]

theorem entryExports_flagExport (g : Graph) (name : String) (id : Nat) :
    (g.flagExport name id).entryExports = g.entryExports.insert name id := by
  rw [flagExport]
  rcases useAsValue_cases ({ g with entryExports := g.entryExports.insert name id }.modifyDeclaration id
    fun d => { d with exported := true }) id with h | ⟨d, module, members, -, -, h⟩ <;> rw [h] <;> rfl

theorem isExported_flagExport {id : Nat} {d : Declaration} (hd : g.declarations[id]? = some d) (name : String)
    (j : Nat) : (g.flagExport name id).isExported j = true ↔ j = id ∨ g.isExported j = true := by
  have hflag : ({ g with entryExports := g.entryExports.insert name id }.modifyDeclaration id
      fun d => { d with exported := true }).isExported j = true ↔ j = id ∨ g.isExported j = true := by
    rw [isExported, isExported, modifyDeclaration, getElem?_modify_eq]
    by_cases hj : id = j
    · subst hj
      simp [hd]
    · simp [hj, Ne.symm hj]
  rw [flagExport]
  rw [← hflag, (tweaks_useAsValue _ id).flags.2]

theorem entryExports_keepOf (g : Graph) (o : Option StatementRef) :
    (g.keepOf o).1.entryExports = g.entryExports := by
  rcases keepOf_cases g o with ⟨h, -⟩ | ⟨r, s, -, -, -, h⟩ <;> rw [h]
  rfl

theorem isExported_keepOf (g : Graph) (o : Option StatementRef) (j : Nat) :
    (g.keepOf o).1.isExported j = g.isExported j := by
  rw [isExported, declarations_keepOf, isExported]

theorem Scan.flags {a b : Graph × List Nat} (hs : Scan a b) :
    (∃ name id h, name ∈ a.1.exportNames entry ∧
      (traceExport (.inside entry) name entry).run a.1 = .ok (id, h) ∧ b.1 = h.flagExport name id) ∨
    b.1.entryExports = a.1.entryExports ∧ ∀ j, b.1.isExported j = a.1.isExported j := by
  cases hs with
  | @export_ g h p name id hname hrun => exact .inl ⟨name, id, h, hname, hrun, rfl⟩
  | @use g p q id d _ _ _ =>
    have hused : ∀ j, (g.flagUsed id).isExported j = g.isExported j := isExported_modifyDeclaration fun _ => rfl
    exact .inr ⟨entryExports_keepOf (g.flagUsed id) d.statement,
      fun j => (isExported_keepOf (g.flagUsed id) d.statement j).trans (hused j)⟩
  | drop _ => exact .inr ⟨rfl, fun _ => rfl⟩
  | @effect g h p r _ hrun =>
    obtain ⟨hexports, hflags⟩ := Tweaks.flags (takes_hasSideEffects r true h hrun)
    exact .inr ⟨(entryExports_keepOf h (some r)).trans hexports,
      fun j => (isExported_keepOf h (some r) j).trans (hflags j)⟩
  | @idle g h p r _ hrun => exact .inr (Tweaks.flags (takes_hasSideEffects r false h hrun))

theorem Scans.entryExports {a b : Graph × List Nat} (hs : Scans a b) {name : String}
    (hname : name ∈ a.1.entryExports.keys) : name ∈ b.1.entryExports.keys := by
  induction hs with
  | refl => exact hname
  | tail _ hstep ih =>
    rcases hstep.flags with ⟨name', id, h, -, hrun, heq⟩ | ⟨hexports, -⟩
    · rw [heq, entryExports_flagExport, (Tweaks.flags (takes_traceExport _ _ _ _ _ hrun)).1, Table.mem_keys_insert]
      exact .inr ih
    · rwa [hexports]

section
variable (hR : Ranged R n) (hw : Wired R n g₀)
include hR hw

/-- An export of the entry that is marked is flagged, under a name that leads to it and to nothing else. -/
theorem Exposes.export_ (hG : Grown g₀ g) (he : Exposes g) {name : String} {id : Nat}
    (hname : name ∈ g.exportNames entry)
    (hrun : (traceExport (.inside entry) name entry).run g = .ok (id, h)) : Exposes (h.flagExport name id) := by
  obtain ⟨t, e, hentity, -⟩ := traces_traceExport hR entry name entry g id h (hG.fits hw.fits) hrun
  obtain ⟨d, hd, -⟩ := Option.map_eq_some_iff.mp hentity
  obtain ⟨hexports, hflags⟩ := Tweaks.flags (takes_traceExport _ _ _ id h hrun)
  have hh : Exposes h := he.later t.grown.later hexports hflags
  have hlater := (grown_flagExport h name id).later
  -- an export that was marked before led to the same declaration
  have hagain : ∀ id', h.entryExports.get? name = some id' → id = id' := by
    intro id' hid
    exact congrArg Prod.fst (Except.ok.inj ((t.again h (.refl h)).symm.trans (hh.traced name id' hid h (.refl h))))
  refine ⟨fun name' id' hid => ?_, fun name' id' hid k hk => ?_, fun id' => ?_⟩
  · rw [entryExports_flagExport, Table.get?_insert] at hid
    rw [exportNames_congr (t.grown.later.trans hlater).routes]
    split at hid
    · next heq => exact heq ▸ hname
    · exact he.known name' id' (hexports ▸ hid)
  · rw [entryExports_flagExport, Table.get?_insert] at hid
    split at hid
    · next heq =>
      obtain rfl := Option.some.inj hid
      exact heq ▸ t.again k (hlater.trans hk)
    · exact hh.traced name' id' hid k (hlater.trans hk)
  · rw [isExported_flagExport hd, hh.flagged, entryExports_flagExport]
    constructor
    · rintro (rfl | ⟨name', hid⟩)
      · exact ⟨name, Table.get?_insert_self name id' _⟩
      · refine ⟨name', ?_⟩
        rw [Table.get?_insert]
        split
        · next heq => exact congrArg some (hagain id' (heq ▸ hid))
        · exact hid
    · rintro ⟨name', hid⟩
      rw [Table.get?_insert] at hid
      split at hid
      · exact .inl (Option.some.inj hid).symm
      · exact .inr ⟨name', hid⟩

theorem Exposes.scans {a b : Graph × List Nat} (hG : Grown g₀ a.1) (he : Exposes a.1) (hs : Scans a b) :
    Exposes b.1 := by
  induction hs with
  | refl => exact he
  | tail hsteps hstep ih =>
    have hG' := hG.trans (Scans.grown hR hw hG hsteps)
    rcases hstep.flags with ⟨name, id, h, hname, hrun, heq⟩ | ⟨hexports, hflags⟩
    · exact heq ▸ ih.export_ hR hw hG' hname hrun
    · exact ih.later (hstep.advances hR hw hG').grown.later hexports hflags

theorem keys_markExports (hG : Grown g₀ g) {names : List String} {u : Unit}
    (hnames : ∀ name ∈ names, name ∈ g.exportNames entry)
    (hrun : (names.forM markExport).run g = .ok (u, h)) : ∀ name ∈ names, name ∈ h.entryExports.keys := by
  induction names generalizing g with
  | nil => exact nofun
  | cons name names ih =>
    obtain ⟨_, k, hfirst, hrest⟩ := run_bind_ok.mp hrun
    have hscans := (scans_markExport hR hw hG (hnames name List.mem_cons_self) hfirst).1
    have hGk := hG.trans (Scans.grown hR hw hG hscans)
    have hnames' : ∀ name ∈ names, name ∈ k.exportNames entry := fun name hname => by
      rw [exportNames_congr (Scans.grown hR hw hG hscans).later.routes]
      exact hnames name (List.mem_cons_of_mem _ hname)
    refine List.forall_mem_cons.mpr ⟨?_, ih hGk hnames' hrest⟩
    obtain ⟨id, l, -, rfl⟩ := markExport_run.mp hfirst
    have hkey : name ∈ (l.flagExport name id).entryExports.keys := by
      rw [entryExports_flagExport, Table.mem_keys_insert]
      exact .inl rfl
    have hmarked := (scans_use (l.flagExport name id) [id]).entryExports hkey
    exact (scans_markExports hR hw hGk hnames' hrest).1.entryExports hmarked

theorem exposes_mark {passes : Nat} (he : Exposes g₀) (hrun : mark.run g₀ = .ok (passes, h)) :
    Exposes h ∧ ∀ name ∈ h.exportNames entry, ∃ id, h.entryExports.get? name = some id := by
  have hscans := (mark_settles hR hw hrun).1
  have hG : Grown g₀ h := Scans.grown hR hw (.refl g₀) hscans
  refine ⟨he.scans hR hw (.refl g₀) hscans, fun name hname => Table.mem_keys_iff.mp ?_⟩
  rw [exportNames_congr hG.later.routes] at hname
  rw [mark, run_get_bind, run_bind_ok] at hrun
  obtain ⟨_, k, hexports, hrest⟩ := hrun
  have hkey := keys_markExports hR hw (.refl g₀) (fun _ h => h) hexports name hname
  have hGk := Scans.grown hR hw (.refl g₀) (scans_markExports hR hw (.refl g₀) (fun _ h => h) hexports).1
  rw [run_get_bind] at hrest
  have hfuel : k.left < k.allStatements.length + 1 := Nat.lt_succ_of_le List.countP_le_length
  exact (markPasses_settles hR hw hGk hfuel hrest).1.entryExports hkey

end

section
variable {modules : List (Module × Table Target)} {externals : List External}

theorem exported_linkAll (next module : Nat) (ms : List (Module × Table Target)) :
    ∀ d ∈ (linkAll next module ms).2, d.exported = false := by
  induction ms generalizing next module with
  | nil => exact nofun
  | cons e ms ih =>
    obtain ⟨m, targets⟩ := e
    intro d hd
    rw [linkAll_cons] at hd
    rcases List.mem_append.mp hd with hd | hd
    · obtain ⟨b, -, rfl⟩ := List.mem_map.mp hd
      rfl
    · exact ih _ _ d hd

theorem exposes_bind {stats : LinkStats} (hrun : bind.run (ofModules modules externals) = .ok (stats, g)) :
    Exposes g := by
  obtain ⟨hexports, hflags⟩ := Changes.flags (takes_bind stats g hrun)
  have hget : ∀ name, g.entryExports.get? name = none := fun name => by rw [hexports]; rfl
  have hnot : ∀ id, g.isExported id = false := by
    intro id
    rw [hflags, isExported]
    cases hd : (ofModules modules externals).declarations[id]? with
    | none => rfl
    | some d => exact exported_linkAll 0 0 modules d (List.mem_of_getElem? hd)
  refine ⟨fun name id hid => ?_, fun name id hid => ?_, fun id => ?_⟩
  · rw [hget] at hid
    cases hid
  · rw [hget] at hid
    cases hid
  · rw [hnot]
    exact ⟨nofun, fun ⟨name, hid⟩ => by rw [hget] at hid; cases hid⟩

theorem Naming.entryExports_give (n : Naming) (b : Bearer) :
    (n.give b).graph.entryExports = n.graph.entryExports := by
  cases b with
  | external i =>
    rw [give, nameExternal]
    split <;> rfl
  | declaration id =>
    rw [give, nameDeclaration]
    split <;> rfl

theorem entryExports_deconflict (g : Graph) (order : List Nat) :
    (g.deconflict order).1.entryExports = g.entryExports := by
  rw [deconflict_eq]
  have hfold : ∀ (bs : List Bearer) (n : Naming),
      (bs.foldl Naming.give n).graph.entryExports = n.graph.entryExports := by
    intro bs
    induction bs with
    | nil => exact fun _ => rfl
    | cons b bs ih => exact fun n => (ih (n.give b)).trans (n.entryExports_give b)
  exact hfold _ _

variable (hf : Fetched modules externals) (hg : Built modules externals g)
include hf hg

theorem Built.exposes : Exposes g ∧ ∀ name ∈ g.exportNames entry, ∃ id, g.entryExports.get? name = some id := by
  obtain ⟨stats, l, passes, h, order, hbind, hmark, rfl⟩ := hg
  have hw := wired_bind (ranged_starred hf) (wired_starred hf) hbind
  obtain ⟨he, hall⟩ := exposes_mark (ranged_starred hf) hw (exposes_bind hbind) hmark
  have hr := renamed_deconflict h order
  have hexports := entryExports_deconflict h order
  refine ⟨he.later hr.later hexports fun id => hr.any (fun _ => rfl) id, fun name hname => ?_⟩
  rw [exportNames_congr hr.later.routes] at hname
  rw [hexports]
  exact hall name hname

/-- The names of a build were given one after the other, none that the wrappers need, and all external modules have one
of them. -/
theorem Built.exists_naming : ∃ first done n, Naming.Distinct first done n ∧ n.graph = g ∧
    (∀ name ∈ wrapperNames, name ∈ first) ∧ ∀ i (hi : i < g.externals.length),
      Bearer.external i ∈ done ∧ (Bearer.external i).name? g = some g.externals[i].name := by
  obtain ⟨stats, l, passes, h, order, hbind, hmark, rfl⟩ := hg
  have hl : l.Linked := ⟨modules, externals, stats, hf, hbind⟩
  obtain ⟨n, hn, hdistinct⟩ := distinct_deconflict h order
  refine ⟨_, _, n, hdistinct, hn, (hl.registered_mark hmark).globals, fun i hi => ⟨?_, ?_⟩⟩
  · rw [(renamed_deconflict h order).later.externals] at hi
    exact List.mem_reverse.mpr (List.mem_append_left _ (List.mem_map_of_mem (List.mem_range.mpr hi)))
  · rw [Bearer.name?, List.getElem?_eq_getElem hi, Option.map_some]

theorem Built.externals_named {e : External} (he : e ∈ g.externals) : e.name ∉ wrapperNames := by
  obtain ⟨first, done, n, hdistinct, rfl, hfirst, hdone⟩ := hg.exists_naming hf
  obtain ⟨i, hi, rfl⟩ := List.mem_iff_getElem.mp he
  obtain ⟨hmem, hname⟩ := hdone i hi
  exact fun hwrapper => (hdistinct.taken _ hmem _ hname).2 (hfirst _ hwrapper)

theorem Built.exportNames_of_exportKeys (hkeys : g.exportKeys = []) : g.exportNames entry = [] := by
  rw [exportKeys] at hkeys
  rw [exportNames, collectExports]
  cases hm : g.modules[entry]? with
  | none => rfl
  | some m =>
    rw [hm] at hkeys
    dsimp only at hkeys
    obtain ⟨hown, hstars⟩ := List.append_eq_nil_iff.mp hkeys
    have hstars' : m.stars = [] := by rw [hg.stars hf hm, hstars, List.filterMap_nil]
    simp [hown, hstars']

end

/-- The output reaches a binding through a property of its exports, at every reference to it and at every access to
a module that has it as a member. The property has the name that the binding got, which need not be the one it is
exported under. -/
structure Through (g : Graph) (id : Nat) (d : Declaration) : Prop where
  name : g.renderName id false = "exports." ++ d.name
  references : ∀ (i : Nat) (m : LinkedModule) (s : Statement) (r : Reference), g.modules[i]? = some m →
    s ∈ m.statements → r ∈ s.references → r.declaration? = some id →
    r ∈ g.changed m false s.references ∧ g.emitted m false s.references r = "exports." ++ d.name
  members : ∀ indent key, g.renderMember false indent (key, id) =
    indent ++ "get " ++ key ++ r" () { return " ++ ("exports." ++ d.name) ++ r"; }"
  shown : ∀ key, property key = "exports." ++ d.name ↔ key = d.name ∧ key ≠ "default"
  line : ∀ key, g.assignment? (key, id) =
    if key = d.name ∧ key ≠ "default" then none else some (property key ++ " = exports." ++ d.name ++ ";")

theorem property_eq_iff {key name : String} : property key = "exports." ++ name ↔ key = name ∧ key ≠ "default" := by
  rw [property]
  split
  · next h =>
    refine ⟨fun heq => ?_, fun hkey => absurd (eq_of_beq h) hkey.2⟩
    have hlists := congrArg String.toList heq
    simp at hlists
  · next h =>
    rw [String.append_right_inj]
    exact ⟨fun heq => ⟨heq, fun hdefault => h (beq_iff_eq.mpr hdefault)⟩, And.left⟩

theorem exportMode_cases {setting : ExportSetting} {mode : ExportMode} (h : g.exportMode setting = .ok mode) :
    mode = .named ∨ mode = .default ∧ g.exportKeys = ["default"] ∨ mode = .none ∧ g.exportKeys = [] := by
  cases setting with
  | auto =>
    obtain rfl := Except.ok.inj h
    by_cases hempty : g.exportKeys = []
    · simp [hempty]
    · by_cases hdefault : g.exportKeys = ["default"] <;> simp [hempty, hdefault]
  | default =>
    rw [exportMode] at h
    split at h
    · next hkeys => exact .inr (.inl ⟨(Except.ok.inj h).symm, eq_of_beq hkeys⟩)
    · cases h
  | named => exact .inl (Except.ok.inj h).symm
  | none =>
    rw [exportMode] at h
    split at h
    · next hkeys => exact .inr (.inr ⟨(Except.ok.inj h).symm, List.isEmpty_iff.mp hkeys⟩)
    · cases h

theorem writesThrough_iff {d : Declaration} : d.writesThrough false = true ↔
    d.kind = .binding ∧ d.exported = true ∧ d.reassigned = true := by
  simp [Declaration.writesThrough, and_assoc]

theorem renderName_through {id : Nat} {d : Declaration} (hd : g.declaration? id = some d)
    (hthrough : d.writesThrough false = true) : g.renderName id false = "exports." ++ d.name := by
  obtain ⟨hkind, hexported, hreassigned⟩ := writesThrough_iff.mp hthrough
  rw [renderName, nameWithin, hd]
  simp [hkind, hexported, hreassigned]

theorem isExported_iff {id : Nat} : g.isExported id = true ↔
    ∃ d, g.declaration? id = some d ∧ d.exported = true :=
  Option.any_eq_true ..

section
variable {modules : List (Module × Table Target)} {externals : List External} (hf : Fetched modules externals)
  (hg : Built modules externals g)
include hf hg

theorem Built.through (hp : PlainModules modules) {id : Nat} {d : Declaration} (hd : g.declaration? id = some d)
    (hthrough : d.writesThrough false = true) : g.Through id d where
  name := renderName_through hd hthrough
  references i m s r hm hs hr hid := by
    have hname := renderName_through hd hthrough
    obtain ⟨hplain, -⟩ := hg.resolved hf hp hm hs hr
    -- no text of a reference has a dot, so it is not the name of the property already
    have hnew : (g.newName? false r).isSome = true := by
      refine Option.isSome_iff_ne_none.mpr fun hnone => hplain.undotted ?_
      rw [(newName?_eq_none hid hnone).1, hname]
      simp
    refine ⟨List.mem_append_left _ (List.mem_filter.mpr ⟨hr, hnew⟩), ?_⟩
    refine ((emitted_eq_renderName_iff hid).mpr fun hnone => ?_).trans hname
    rw [hnone] at hnew
    cases hnew
  members indent key := by
    have hreassigned : g.isReassigned id = true := by
      rw [isReassigned, show g.declarations[id]? = some d from hd]
      exact (writesThrough_iff.mp hthrough).2.2
    rw [renderMember, renderName_through hd hthrough, if_pos hreassigned]
  shown _ := property_eq_iff
  line key := by
    rw [assignment?, renderName_through hd hthrough]
    simp only [beq_iff_eq, property_eq_iff]
    split
    · rfl
    · have hequals : " = exports." = " = " ++ "exports." := rfl
      simp only [hequals, String.append_assoc]

theorem Built.mem_parameters {w : Wrapper} (hw : w.graph = g) : "exports" ∈ w.parameters ↔ w.mode = .named := by
  have hnames : "exports" ∉ w.externalNames := by
    intro hmem
    obtain ⟨e, he, hname⟩ := List.mem_map.mp hmem
    rw [Wrapper.externals, hw] at he
    exact hg.externals_named hf he (hname ▸ by decide)
  rw [Wrapper.parameters, Wrapper.withExports]
  split
  · next hmode => exact ⟨fun _ => eq_of_beq hmode, fun _ => List.mem_cons_self⟩
  · next hmode => exact ⟨fun hmem => absurd hmem hnames, fun hmode' => absurd (beq_iff_eq.mpr hmode') hmode⟩

end

/-- In a build, each export of the entry leads to a declaration of which the output knows that it is exported. An
output that is no module itself reaches what is exported and assigned to through a property, and nothing that is not
exported; its wrapper has a parameter for the exports if it shows them by name, and it shows them so unless the
default export is the only one. What shows them by name are assignments to the properties of the entry's exports. -/
theorem exports_written_through {modules : List (Module × Table Target)} {externals : List External}
    (hf : Fetched modules externals) (hp : PlainModules modules) (hg : Built modules externals g) :
    (∀ name ∈ g.exportNames entry, ∃ id, g.entryExports.get? name = some id ∧
      (traceExport (.inside entry) name entry).run g = .ok (id, g) ∧
      ∀ d, g.declaration? id = some d → d.kind = .binding → d.reassigned = true →
        d.writesThrough false = true) ∧
    (∀ id d, g.declaration? id = some d → d.writesThrough false = true → g.Through id d ∧
      ∃ name ∈ g.exportNames entry, g.entryExports.get? name = some id) ∧
    (∀ w : Wrapper, w.graph = g → ("exports" ∈ w.parameters ↔ w.mode = .named) ∧
      w.factory = "function (" ++ Wrapper.commas w.parameters ++ r") {" ++ w.strict ++ "\n\n") ∧
    (∀ setting mode id d, g.exportMode setting = .ok mode → g.declaration? id = some d →
      d.writesThrough false = true → mode = .named ∨ mode = .default ∧ g.exportKeys = ["default"]) ∧
    ∀ mechanism, g.exportBlock .named mechanism = "\n".intercalate (g.entryExports.filterMap g.assignment?) := by
  obtain ⟨he, hall⟩ := hg.exposes hf
  have hexported : ∀ id d, g.declaration? id = some d → d.writesThrough false = true →
      ∃ name ∈ g.exportNames entry, g.entryExports.get? name = some id := by
    intro id d hd hthrough
    obtain ⟨name, hid⟩ := (he.flagged id).mp (isExported_iff.mpr ⟨d, hd, (writesThrough_iff.mp hthrough).2.1⟩)
    exact ⟨name, he.known name id hid, hid⟩
  refine ⟨fun name hname => ?_, fun id d hd hthrough => ⟨hg.through hf hp hd hthrough, hexported id d hd hthrough⟩,
    fun w hw => ⟨hg.mem_parameters hf hw, w.factory_eq⟩, fun setting mode id d hmode hd hthrough => ?_,
    exportBlock_named g⟩
  · obtain ⟨id, hid⟩ := hall name hname
    refine ⟨id, hid, he.traced name id hid g (.refl g), fun d hd hkind hreassigned => ?_⟩
    obtain ⟨d', hd', hflag⟩ := isExported_iff.mp ((he.flagged id).mpr ⟨name, hid⟩)
    obtain rfl := Option.some.inj (hd.symm.trans hd')
    exact writesThrough_iff.mpr ⟨hkind, hflag, hreassigned⟩
  · have hkeys : g.exportKeys ≠ [] := by
      intro hempty
      obtain ⟨name, hname, -⟩ := hexported id d hd hthrough
      rw [hg.exportNames_of_exportKeys hf hempty] at hname
      cases hname
    rcases exportMode_cases hmode with h | h | ⟨-, hempty⟩
    · exact .inl h
    · exact .inr h
    · exact absurd hempty hkeys

def assigned (key : String) : List (Module × Table Target) :=
  [(wholeModule "0" .other [{ name := "a", start := 0, stop := 1, scope := 0, reassigns := true }] []
    [(key, ⟨"a", none, 0⟩)] [⟨"a", "a", some 0⟩], [])]

def assignedGraph (key : String) : Option (Graph × LinkedModule × Statement × Reference) := do
  let (_, g) ← (bind.run (ofModules (assigned key) [])).toOption
  let (_, h) ← (mark.run g).toOption
  let k := (h.deconflict [0]).1
  let m ← k.modules[0]?
  let s ← m.statements[0]?
  let r ← s.references[0]?
  return (k, m, s, r)

theorem built_assigned {key : String} {m : LinkedModule} {s : Statement} {r : Reference}
    (h : assignedGraph key = some (g, m, s, r)) :
    Built (assigned key) [] g ∧ g.modules[0]? = some m ∧ s ∈ m.statements ∧ r ∈ s.references := by
  simp only [assignedGraph, Option.bind_eq_bind, Option.bind_eq_some_iff] at h
  obtain ⟨⟨stats, l⟩, hbind, ⟨passes, k⟩, hmark, m', hm, s', hs, r', hr, heq⟩ := h
  obtain ⟨rfl, rfl, rfl, rfl⟩ : _ ∧ _ ∧ _ ∧ _ := by simpa using heq
  exact ⟨⟨stats, l, passes, k, [0], ok_of_toOption hbind, ok_of_toOption hmark, rfl⟩, hm,
    List.mem_of_getElem? hs, List.mem_of_getElem? hr⟩

theorem fetched_assigned (key : String) : Fetched (assigned key) [] := by
  refine ⟨fun e he => ?_, fun e he s t h => ?_, fun e he s i h => ?_, fun e he s i h => ?_, nofun⟩
  all_goals obtain rfl := List.mem_singleton.mp he
  · refine ⟨fun s hs => ?_, fun s hs r hr => ?_, fun b hb i hi => ?_⟩
    · obtain rfl := List.mem_singleton.mp hs
      rfl
    · obtain rfl := List.mem_singleton.mp hs
      obtain rfl := List.mem_singleton.mp hr
      rfl
    · obtain rfl := List.mem_singleton.mp hb
      obtain rfl := Option.some.inj hi
      exact Nat.one_pos
  all_goals cases h

theorem plain_assigned (key : String) : PlainModules (assigned key) := by
  intro e he s hs
  obtain rfl := List.mem_singleton.mp he
  obtain rfl := List.mem_singleton.mp hs
  exact Reference.Plain.of_bare _ (by decide)

theorem exports_written_through_assigned : ∃ g d m s r, Built (assigned "a") [] g ∧
    g.entryExports.get? "a" = some 0 ∧ g.declaration? 0 = some d ∧ d.writesThrough false = true ∧
    g.modules[0]? = some m ∧ s ∈ m.statements ∧ r ∈ s.references ∧ r.reassigns = true ∧
    g.emitted m false s.references r = "exports." ++ d.name ∧ property "a" = "exports." ++ d.name := by
  have hrun : (assignedGraph "a").bind (fun p => (p.1.declaration? 0).map fun d =>
      (p.1.entryExports.get? "a", d.name, d.writesThrough false, p.2.2.2.declaration?, p.2.2.2.reassigns)) =
      some (some 0, "a", true, some 0, true) := by
    cbv
  obtain ⟨⟨g, m, s, r⟩, hassigned, hvalue⟩ := Option.bind_eq_some_iff.mp hrun
  obtain ⟨d, hd, hvalue⟩ := Option.map_eq_some_iff.mp hvalue
  simp only [Prod.mk.injEq] at hvalue
  obtain ⟨hexport, hname, hthrough, hid, hreassigns⟩ := hvalue
  obtain ⟨hg, hm, hs, hr⟩ := built_assigned hassigned
  obtain ⟨-, hwritten, -⟩ := exports_written_through (fetched_assigned "a") (plain_assigned "a") hg
  have hd' := (hwritten 0 d hd hthrough).1
  exact ⟨g, d, m, s, r, hg, hexport, hd, hthrough, hm, hs, hr, hreassigns,
    (hd'.references 0 m s r hm hs hr hid).2, (hd'.shown "a").mpr ⟨hname.symm, by decide⟩⟩

/-- The property that is assigned to is none of an export if that has another name; and it is one of nothing if the
export is the default one, as the wrapper has no parameter for it then. -/
theorem renamed_export_not_live :
    (∃ g d m s r, Built (assigned "b") [] g ∧ g.exportNames entry = ["b"] ∧ g.entryExports.get? "b" = some 0 ∧
      g.declaration? 0 = some d ∧ d.kind = .binding ∧ d.reassigned = true ∧ g.modules[0]? = some m ∧
      s ∈ m.statements ∧ s.included = true ∧ r ∈ s.references ∧ r.declaration? = some 0 ∧
      g.emitted m false s.references r = "exports.a" ∧ property "b" = "exports.b") ∧
    ∃ g m s r, Built (assigned "default") [] g ∧ g.exportMode .auto = .ok .default ∧ g.modules[0]? = some m ∧
      s ∈ m.statements ∧ s.included = true ∧ r ∈ s.references ∧ g.emitted m false s.references r = "exports.a" ∧
      ∀ options, (Wrapper.mk g .default "" "" options).parameters = [] := by
  have hrun : (assignedGraph "b").bind (fun p => (p.1.declaration? 0).map fun d =>
      (p.1.exportNames entry, p.1.entryExports.get? "b", d.kind, d.reassigned, p.2.2.1.included,
        p.2.2.2.declaration?, p.1.emitted p.2.1 false p.2.2.1.references p.2.2.2)) =
      some (["b"], some 0, .binding, true, true, some 0, "exports.a") := by
    cbv
  have hdefault : (assignedGraph "default").map (fun p => ((p.1.exportMode .auto).toOption, p.2.2.1.included,
      p.1.emitted p.2.1 false p.2.2.1.references p.2.2.2, p.1.externals)) =
      some (some .default, true, "exports.a", []) := by
    cbv
  constructor
  · obtain ⟨⟨g, m, s, r⟩, hassigned, hvalue⟩ := Option.bind_eq_some_iff.mp hrun
    obtain ⟨d, hd, hvalue⟩ := Option.map_eq_some_iff.mp hvalue
    simp only [Prod.mk.injEq] at hvalue
    obtain ⟨hnames, hexport, hkind, hreassigned, hincluded, hid, hemitted⟩ := hvalue
    obtain ⟨hg, hm, hs, hr⟩ := built_assigned hassigned
    exact ⟨g, d, m, s, r, hg, hnames, hexport, hd, hkind, hreassigned, hm, hs, hincluded, hr, hid, hemitted, rfl⟩
  · obtain ⟨⟨g, m, s, r⟩, hassigned, hvalue⟩ := Option.map_eq_some_iff.mp hdefault
    simp only [Prod.mk.injEq] at hvalue
    obtain ⟨hmode, hincluded, hemitted, hexternals⟩ := hvalue
    obtain ⟨hg, hm, hs, hr⟩ := built_assigned hassigned
    refine ⟨g, m, s, r, hg, ok_of_toOption hmode, hm, hs, hincluded, hr, hemitted, fun options => ?_⟩
    change (Wrapper.mk g .default "" "" options).externalNames = []
    rw [Wrapper.externalNames, Wrapper.externals, hexternals, List.map_nil]

end Graph

end Treeshake
