import Treeshake.Proofs.Draft.Stretch
import Treeshake.Proofs.Graph.Capture
import Treeshake.Proofs.Graph.Exposed
/-!
What a statement adds to the text of its module. Rendering a statement is a list of edits. Main statement: what
these make of the statement's own text depends on that text, on the statement and its scopes, on the names that its
references get, on the declaration of its binding, and on nothing else of the graph.
-/
set_option autoImplicit false

namespace Treeshake

def StatementKind.key? : StatementKind → Option String
  | .declarator _ name _ _ => name
  | .exportDeclaration _ _ name => name
  | .exportDefault _ _ => some "default"
  | _ => none

/-- Where the keyword of a function without a name stands that is a default export. -/
def StatementKind.head? : StatementKind → Option (Nat × Nat)
  | .exportDefault declarationStart (.anonymousFunction headEnd) => some (declarationStart, headEnd)
  | _ => none

def Statement.isLink (s : Statement) : Bool :=
  match s.kind with
  | .importing | .exportClause | .reexport => true
  | _ => false

namespace Graph

def substitution (r : Reference) (name : String) : Edit :=
  if r.shorthand then .insert r.stop (": " ++ name) else .overwrite r.start r.stop name true

def replacements (g : Graph) (m : LinkedModule) (es6 : Bool) (references : List Reference) : List Edit :=
  (g.changed m es6 references).map fun r => substitution r (g.emitted m es6 references r)

def defaultEdits (g : Graph) (m : LinkedModule) (es6 : Bool) (s : Statement) (declarationStart : Nat)
    (form : DefaultForm) : List Edit :=
  if form == .declaration then [.remove s.nodeStart declarationStart]
  else
    match m.declarations.get? "default" with
    | none => []
    | some id =>
      if !(g.declaration? id).any fun x => x.exported || x.used then [.remove s.start declarationStart]
      else
        match form with
        | .anonymousFunction headEnd =>
          [.overwrite s.nodeStart headEnd
            (Text.slice declarationStart headEnd m.code ++ " " ++ g.renderName id es6) false]
        | _ => [.overwrite s.nodeStart declarationStart ("var " ++ g.renderName id es6 ++ " = ") false]

def declaratorEdits (s : Statement) (keyword : Option String) (separatorEnd : Nat) (last : Bool) : List Edit :=
  (keyword.map fun keyword => Edit.insert s.start (keyword ++ " ")).toList ++
    [if s.stop = separatorEnd then .insert s.stop (if last then ";" else ";\n")
      else .overwrite s.stop separatorEnd (if last then ";" else ";\n") false]

def kindEdits (g : Graph) (m : LinkedModule) (es6 : Bool) (s : Statement) : List Edit :=
  match s.kind with
  | .importing | .exportClause | .reexport => [.remove s.start s.next]
  | .declarator keyword name separatorEnd last =>
    declaratorEdits s (if g.exportsBinding m name es6 then none else some keyword) separatorEnd last ++
      g.replacements m es6 s.references
  | .exportDeclaration declarationStart declaratorStart name =>
    g.replacements m es6 s.references ++
      [.remove s.nodeStart ((declaratorStart.filter fun _ => g.exportsBinding m name es6).getD declarationStart)]
  | .exportDefault declarationStart form =>
    g.replacements m es6 s.references ++ g.defaultEdits m es6 s declarationStart form
  | .variable | .other => g.replacements m es6 s.references

/-- The edits that render a statement. -/
def statementEdits (g : Graph) (m : LinkedModule) (es6 : Bool) (s : Statement) : List Edit :=
  if !s.included || g.isRedundant m s then [.remove s.start s.next]
  else s.literals.map (fun r => Edit.protect r.1 r.2) ++ g.kindEdits m es6 s

variable {g h : Graph} {m n : LinkedModule} {es6 : Bool} {s : Statement}

theorem substitute_eq (d : Draft) (r : Reference) (name : String) :
    substitute d r name = (substitution r name).apply d := by
  rw [substitute, substitution]
  split <;> rfl

theorem replaceReferences_revise (g : Graph) (m : LinkedModule) (es6 : Bool) (s : Statement) (d : Draft) :
    g.replaceReferences m es6 s d = d.revise (g.replacements m es6 s.references) := by
  rw [replaceReferences_eq, replacements, Draft.revise, List.foldlM_map]
  simp only [substitute_eq]

theorem renderDeclarator_revise (d : Draft) (s : Statement) (keyword : Option String) (separatorEnd : Nat)
    (last : Bool) :
    renderDeclarator d s keyword separatorEnd last = d.revise (declaratorEdits s keyword separatorEnd last) := by
  have hend : ∀ d : Draft,
      (if s.stop = separatorEnd then d.insert s.stop (if last then ";" else ";\n")
        else d.overwrite s.stop separatorEnd (if last then ";" else ";\n") false) =
      d.revise [if s.stop = separatorEnd then .insert s.stop (if last then ";" else ";\n")
        else .overwrite s.stop separatorEnd (if last then ";" else ";\n") false] := by
    intro d
    rw [Draft.revise_singleton]
    split <;> rfl
  rw [declaratorEdits, Draft.revise_append]
  cases keyword with
  | none => exact hend d
  | some keyword =>
    rw [Option.map_some, Option.toList_some, Draft.revise_singleton]
    exact congrArg (d.insert s.start (keyword ++ " ") >>= ·) (funext hend)

theorem renderDefault_revise (g : Graph) (m : LinkedModule) (es6 : Bool) (s : Statement) (declarationStart : Nat)
    (form : DefaultForm) (d : Draft) :
    g.renderDefault m es6 s declarationStart form d = d.revise (g.defaultEdits m es6 s declarationStart form) := by
  rw [renderDefault, defaultEdits]
  by_cases hform : (form == .declaration) = true
  · rw [if_pos hform, if_pos hform, Draft.revise_singleton]
    rfl
  · rw [if_neg hform, if_neg hform]
    cases m.declarations.get? "default" with
    | none => rfl
    | some id =>
      dsimp only
      split
      · rw [Draft.revise_singleton]
        rfl
      · cases form <;> (rw [Draft.revise_singleton]; rfl)

theorem revise_protect (d : Draft) (literals : List (Nat × Nat)) :
    d.revise (literals.map fun r => Edit.protect r.1 r.2) =
      .ok (literals.foldl (fun d r => d.protect r.1 r.2) d) := by
  induction literals generalizing d with
  | nil => rfl
  | cons r literals ih => exact ih (d.protect r.1 r.2)

theorem renderStatement_revise (g : Graph) (m : LinkedModule) (es6 : Bool) (s : Statement) (d : Draft) :
    g.renderStatement m es6 d s =
      d.revise (s.literals.map (fun r => Edit.protect r.1 r.2) ++ g.kindEdits m es6 s) := by
  rw [Draft.revise_append, revise_protect, renderStatement, kindEdits]
  change _ = Draft.revise _ _
  cases s.kind with
  | importing =>
    rw [Draft.revise_singleton]
    rfl
  | exportClause =>
    rw [Draft.revise_singleton]
    rfl
  | reexport =>
    rw [Draft.revise_singleton]
    rfl
  | declarator keyword name separatorEnd last =>
    rw [Draft.revise_append]
    simp only [renderDeclarator_revise, replaceReferences_revise]
  | exportDeclaration declarationStart declaratorStart name =>
    rw [Draft.revise_append]
    simp only [replaceReferences_revise, Draft.revise_singleton]
    rfl
  | exportDefault declarationStart form =>
    rw [Draft.revise_append]
    simp only [replaceReferences_revise, renderDefault_revise]
  | «variable» => exact replaceReferences_revise ..
  | other => exact replaceReferences_revise ..

theorem renderModule_revise {i : Nat} (hm : g.modules[i]? = some m) (es6 : Bool) :
    g.renderModule i es6 = m.statements.foldlM (fun d s => d.revise (g.statementEdits m es6 s)) m.draft >>=
      fun d => .ok (((g.renderObject? m es6).map d.append).getD d).trim := by
  rw [renderModule, hm]
  refine congrArg₂ (· >>= ·) (congrArg (fun f => m.statements.foldlM f m.draft) ?_) (funext fun d => ?_)
  · funext d s
    rw [statementEdits]
    split
    · rw [Draft.revise_singleton]
      rfl
    · exact renderStatement_revise ..
  · cases g.renderObject? m es6 <;> rfl

def isDropped (g : Graph) (m : LinkedModule) (s : Statement) : Bool :=
  !s.included || g.isRedundant m s || s.isLink

def remains (g : Graph) (m : LinkedModule) (es6 : Bool) (s : Statement) : List Cell :=
  Edit.cuts s.next (m.draft.stretch s.start s.next) (g.statementEdits m es6 s)

/-- What a statement adds to the text of its module. -/
def contribution (g : Graph) (m : LinkedModule) (es6 : Bool) (s : Statement) : String :=
  String.ofList (Cell.text (g.remains m es6 s))

theorem cuts_protect (stop : Nat) (cells : List Cell) (literals : List (Nat × Nat)) (es : List Edit) :
    Edit.cuts stop cells (literals.map (fun r => Edit.protect r.1 r.2) ++ es) = Edit.cuts stop cells es := by
  induction literals with
  | nil => rfl
  | cons r literals ih => exact ih

theorem cuts_remove_stretch (d : Draft) (start stop : Nat) :
    Edit.cuts stop (d.stretch start stop) [.remove start stop] = [] := by
  have hall : ∀ c ∈ d.stretch start stop, c.within start stop = true := fun c hc => (List.mem_filter.mp hc).2
  change Edit.cut stop _ (.remove start stop) = []
  rw [Edit.cut]
  cases hcells : d.stretch start stop with
  | nil => rfl
  | cons c cells =>
    rw [hcells] at hall
    rw [Cell.behind_of_all hall]
    simp [Cell.upTo, hall c List.mem_cons_self]

theorem remains_of_dropped (hs : g.isDropped m s = true) (es6 : Bool) : g.remains m es6 s = [] := by
  rw [remains, statementEdits]
  split
  · exact cuts_remove_stretch m.draft s.start s.next
  · next hstays =>
    rw [isDropped, Bool.or_eq_true] at hs
    have hlink := hs.resolve_left hstays
    rw [cuts_protect, kindEdits]
    rw [Statement.isLink] at hlink
    split at hlink
    · next hkind =>
      rw [hkind]
      exact cuts_remove_stretch m.draft s.start s.next
    · next hkind =>
      rw [hkind]
      exact cuts_remove_stretch m.draft s.start s.next
    · next hkind =>
      rw [hkind]
      exact cuts_remove_stretch m.draft s.start s.next
    · cases hlink

/-- What rendering asks about a declaration: its name, and whether it is exported, reassigned, used or replaced by
what it stands for. -/
def bearing (g : Graph) (es6 : Bool) (id : Nat) : String × Bool × Bool × Bool × Bool :=
  (g.renderName id es6, g.isExported id, g.isReassigned id, g.isUsed id, (g.declaration? id).any g.isReplaced)

/-- The rendering of a statement finds the same in one graph and module as in another: in the text of the statement,
in its scopes, about the declarations it refers to, and about the declaration of its binding. The last part is about
the text as it was at first. -/
structure Agrees (g h : Graph) (m n : LinkedModule) (es6 : Bool) (s : Statement) : Prop where
  stretch : n.draft.stretch s.start s.next = m.draft.stretch s.start s.next
  scopes : n.scopes = m.scopes
  names : ∀ r ∈ s.references, ∀ id, r.declaration? = some id → h.renderName id es6 = g.renderName id es6
  bearing : ∀ key, s.kind.key? = some key →
    (n.declarations.get? key).map (h.bearing es6) = (m.declarations.get? key).map (g.bearing es6)
  head : ∀ range, s.kind.head? = some range →
    Text.slice range.1 range.2 n.code = Text.slice range.1 range.2 m.code

theorem exportsBinding_eq (g : Graph) (m : LinkedModule) (name : Option String) (es6 : Bool) :
    g.exportsBinding m name es6 =
      (!es6 && ((name.bind m.declarations.get?).map (g.bearing es6)).any fun b => b.2.1 && b.2.2.1) := by
  rw [exportsBinding]
  cases name.bind m.declarations.get? with
  | none => rfl
  | some id =>
    simp only [Option.bind_some, Option.map_some, Option.any_some, Graph.bearing, isExported, isReassigned,
      declaration?]
    cases g.declarations[id]? <;> rfl

theorem isRedundant_eq (g : Graph) (m : LinkedModule) (es6 : Bool) {declarationStart : Nat} {form : DefaultForm}
    (hs : s.kind = .exportDefault declarationStart form) :
    g.isRedundant m s = (form != .declaration &&
      ((m.declarations.get? "default").map (g.bearing es6)).any fun b => b.2.2.2.2) := by
  rw [isRedundant, hs]
  cases m.declarations.get? "default" <;> rfl

section
variable (ha : Agrees g h m n es6 s)
include ha

theorem Agrees.exportsBinding {name : Option String} (hkey : s.kind.key? = name) :
    h.exportsBinding n name es6 = g.exportsBinding m name es6 := by
  rw [exportsBinding_eq, exportsBinding_eq]
  cases name with
  | none => rfl
  | some key => rw [Option.bind_some, Option.bind_some, ha.bearing key hkey]

theorem Agrees.isRedundant : h.isRedundant n s = g.isRedundant m s := by
  cases hkind : s.kind with
  | exportDefault declarationStart form =>
    rw [isRedundant_eq h n es6 hkind, isRedundant_eq g m es6 hkind, ha.bearing "default" (by rw [hkind]; rfl)]
  | _ => simp only [Graph.isRedundant, hkind]

theorem Agrees.newName? {r : Reference} (hr : r ∈ s.references) : h.newName? es6 r = g.newName? es6 r := by
  rw [Graph.newName?, Graph.newName?]
  cases hid : r.declaration? with
  | none => rfl
  | some id => rw [Option.bind_some, Option.bind_some, ha.names r hr id hid]

theorem Agrees.captured : h.captured n es6 s.references = g.captured m es6 s.references := by
  rw [Graph.captured, Graph.captured, ha.scopes]
  exact List.filterMap_congr fun r hr => by rw [ha.newName? hr]

theorem Agrees.replacements : h.replacements n es6 s.references = g.replacements m es6 s.references := by
  have hchanged : h.changed n es6 s.references = g.changed m es6 s.references := by
    rw [changed, changed, ha.captured]
    congr 1
    · exact List.filter_congr fun r hr => by rw [ha.newName? hr]
    · exact List.filter_congr fun r hr => by rw [ha.newName? hr]
  rw [Graph.replacements, Graph.replacements, hchanged]
  refine List.map_congr_left fun r hr => ?_
  have hmem : r ∈ s.references := by
    rcases List.mem_append.mp hr with hr | hr <;> exact (List.mem_filter.mp hr).1
  rw [emitted, emitted, ha.captured, ha.newName? hmem]

theorem Agrees.defaultEdits {declarationStart : Nat} {form : DefaultForm}
    (hs : s.kind = .exportDefault declarationStart form) :
    h.defaultEdits n es6 s declarationStart form = g.defaultEdits m es6 s declarationStart form := by
  have hbearing := ha.bearing "default" (by rw [hs]; rfl)
  have hflag : ∀ (k : Graph) (id : Nat),
      ((k.declaration? id).any fun x => x.exported || x.used) = (k.isExported id || k.isUsed id) := by
    intro k id
    rw [declaration?, isExported, isUsed]
    cases k.declarations[id]? <;> rfl
  rw [Graph.defaultEdits, Graph.defaultEdits]
  cases hm : m.declarations.get? "default" with
  | none =>
    rw [hm, Option.map_none, Option.map_eq_none_iff] at hbearing
    rw [hbearing]
  | some id =>
    rw [hm, Option.map_some] at hbearing
    obtain ⟨id', hn, hid⟩ := Option.map_eq_some_iff.mp hbearing
    simp only [Graph.bearing, Prod.mk.injEq] at hid
    obtain ⟨hname, hexported, -, hused, -⟩ := hid
    rw [hn]
    simp only [hflag, hname, hexported, hused]
    cases form with
    | anonymousFunction headEnd =>
      have hhead : Text.slice declarationStart headEnd n.code = Text.slice declarationStart headEnd m.code :=
        ha.head (declarationStart, headEnd) (by rw [hs]; rfl)
      dsimp only
      rw [hhead]
    | declaration => rfl
    | expression => rfl

theorem Agrees.statementEdits : h.statementEdits n es6 s = g.statementEdits m es6 s := by
  rw [Graph.statementEdits, Graph.statementEdits, ha.isRedundant, kindEdits, kindEdits]
  cases hkind : s.kind with
  | declarator keyword name separatorEnd last =>
    simp only [ha.exportsBinding (by rw [hkind]; rfl : s.kind.key? = name), ha.replacements]
  | exportDeclaration declarationStart declaratorStart name =>
    simp only [ha.exportsBinding (by rw [hkind]; rfl : s.kind.key? = name), ha.replacements]
  | exportDefault declarationStart form => simp only [ha.replacements, ha.defaultEdits hkind]
  | _ => simp only [ha.replacements]

theorem Agrees.contribution : h.contribution n es6 s = g.contribution m es6 s := by
  rw [Graph.contribution, Graph.contribution, remains, remains, ha.stretch, ha.statementEdits]

end

theorem nameWithin_congr (hd : h.declarations = g.declarations) (hx : h.externals = g.externals) (fuel : Nat)
    (seen : List Nat) (id : Nat) : h.nameWithin es6 fuel seen id = g.nameWithin es6 fuel seen id := by
  induction fuel generalizing seen id with
  | zero => simp only [nameWithin, declaration?, hd]
  | succ fuel ih =>
    simp only [nameWithin, declaration?, isReassigned, hd, hx, ih]
    rfl

theorem bearing_congr (hd : h.declarations = g.declarations) (hx : h.externals = g.externals) (es6 : Bool)
    (id : Nat) : h.bearing es6 id = g.bearing es6 id := by
  have hreplaced : h.isReplaced = g.isReplaced := by
    funext d
    simp only [isReplaced, isReassigned, hd]
  simp only [bearing, renderName, nameWithin_congr hd hx, hreplaced, isExported, isReassigned, isUsed, declaration?, hd]

/-- What a statement adds is not changed by what other statements are included. -/
theorem contribution_withIncluded (g : Graph) (S : StatementRef → Bool) (m : LinkedModule) (ss : List Statement)
    (es6 : Bool) (s : Statement) :
    (g.withIncluded S).contribution { m with statements := ss } es6 s = g.contribution m es6 s :=
  have hbearing : (g.withIncluded S).bearing es6 = g.bearing es6 :=
    funext (bearing_congr (g := g) (h := g.withIncluded S) rfl rfl es6)
  Agrees.contribution ⟨rfl, rfl, fun _ _ id _ => congrArg Prod.fst (congrFun hbearing id), fun _ _ => by rw [hbearing],
    fun _ _ => rfl⟩

end Graph

end Treeshake
