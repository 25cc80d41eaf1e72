import Lindenmayer.Document.Drawing
import Lindenmayer.Proofs.Bounds
import Lindenmayer.Proofs.Reread
import Lindenmayer.Proofs.RuleSets

/-!
# Drawings and canvases in documents

A canvas can always be written to a document, whatever its numbers are: those that are not
finite are written as null (`Json.ofFloat_of_not_finite`). Where a number stands in a canvas,
null is refused, so the document is refused as a whole if one number of many is not finite. It
is refused for no other reason, and it is read as the canvas it was written for if each number
is read as itself (`canvases_survive`).

This is told from the numbers up (`Json.Echoes`): of a number, of two parts that are read one
after the other (`Json.Echoes.bind`), of lists of any length (`Json.echoes_map`), and so of
points, primitives, boxes, drawings, subplots and canvases. The fields of records have
different names, and are found under them (`Json.record?_ofMembers`).
-/

namespace Lindenmayer

namespace Json

/-! ## Records -/

/-- The value of a field, if no other field has its name. -/
theorem field?_map {members : List (String × Json)} (hnames : (members.map Prod.fst).Nodup)
    {m : String × Json} (hm : m ∈ members) :
    field? (members.map fun (name, value) => (some name, value)) m.1 = some (some m.2) := by
  have hfilter : (members.map fun (name, value) => (some name, value)).filter
      (·.1 == some m.1) = [(some m.1, m.2)] := by
    induction members with
    | nil => cases hm
    | cons a members ih =>
      rw [List.map_cons, List.nodup_cons] at hnames
      rcases List.mem_cons.1 hm with rfl | hm
      · have hrest : ∀ b ∈ members, b.1 ≠ m.1 := fun b hb hname =>
          hnames.1 (hname ▸ List.mem_map_of_mem hb)
        simpa [List.filter_map, Function.comp_def] using hrest
      · have hname : a.1 ≠ m.1 := fun hname => hnames.1 (hname ▸ List.mem_map_of_mem hm)
        rw [List.map_cons, List.filter_cons_of_neg (by simpa using hname)]
        exact ih hnames.2 hm
  rw [field?, hfilter]

/-- The fields of a record with different names are read as they are written. -/
theorem record?_ofMembers (members : List (String × Json))
    (hnames : (members.map Prod.fst).Nodup) :
    record? (members.map Prod.fst) (ofMembers members) = some (members.map Prod.snd) := by
  have hfields : fields? (members.map Prod.fst) (ofMembers members) =
      some (members.map fun m => some m.2) := by
    rw [ofMembers, fields?, if_pos (by simp)]
    exact mapM_map_of_mem fun m hm => field?_map hnames hm
  rw [record?, hfields]
  exact mapM_map_of_mem fun _ _ => rfl

/-! ## Numbers -/

/-- What is read of a number that has been written. -/
def reread? (x : Float) : Option Float := (ofFloat x).asFloat?

theorem isFinite_iff {x : Float} :
    x.isFinite ↔ ∃ negative m e, Binary64.ofFloat x = .finite negative m e := by
  change x.toModel.unpack.isFinite ↔ _
  rw [unpack_eq]
  cases Binary64.ofFloat x with
  | notANumber => exact iff_of_false nofun nofun
  | infinite negative => exact iff_of_false nofun nofun
  | finite negative m e =>
    refine iff_of_true ?_ ⟨_, _, _, rfl⟩
    rw [Binary64.unpacked]
    split_ifs <;> rfl

/-- A finite number is written and read. -/
theorem exists_reread {x : Float} (h : x.isFinite) :
    ∃ n y, Number.ofFloat? x = some n ∧ n.IsWritten ∧ n.toFloat? = some y := by
  obtain ⟨negative, m, e, hx⟩ := isFinite_iff.1 h
  rcases m.eq_zero_or_pos with rfl | hm
  · have hzero : Number.ofFloat? x = some ⟨negative, [.zero], [.zero], none⟩ := by
      simp [Number.ofFloat?, hx]
    refine ⟨_, if negative then -0 else 0, hzero, ⟨.single _⟩, ?_⟩
    cases negative <;> decide +kernel
  · obtain ⟨n, y, hn, hwritten, hread, -⟩ := Number.exists_toFloat? hx hm
    exact ⟨n, y, hn, hwritten, hread⟩

/-- What is not finite is written as null. -/
theorem ofFloat_of_not_finite {x : Float} (h : ¬ x.isFinite) : ofFloat x = .null := by
  rw [isFinite_iff] at h
  rw [ofFloat, Number.ofFloat?]
  cases hx : Binary64.ofFloat x with
  | finite negative m e => exact absurd ⟨_, _, _, hx⟩ h
  | _ => rfl

theorem isWritten_ofFloat (x : Float) : (ofFloat x).IsWritten := by
  by_cases h : x.isFinite
  · obtain ⟨n, -, hn, hwritten, -⟩ := exists_reread h
    rw [ofFloat, hn]
    exact .number hwritten
  · rw [ofFloat_of_not_finite h]
    exact .null

/-- Null is not read as a number, and nothing else is refused. -/
theorem reread?_eq_none_iff (x : Float) : reread? x = none ↔ ¬ x.isFinite := by
  constructor
  · intro hnone hfinite
    obtain ⟨n, y, hn, -, hread⟩ := exists_reread hfinite
    simp [reread?, ofFloat, hn, asFloat?, hread] at hnone
  · intro h
    rw [reread?, ofFloat_of_not_finite h]
    rfl

/-! ## Values made of numbers -/

/-- What is read of a value made of numbers: the value, if each of the numbers is read as
    itself, and nothing just if some number is not finite. -/
structure Echoes {α : Type} (numbers : List Float) (read : Option α) (a : α) : Prop where
  same : (∀ x ∈ numbers, reread? x = some x) → read = some a
  eq_none_iff : read = none ↔ ∃ x ∈ numbers, ¬ x.isFinite

section

variable {α β : Type} {numbers more : List Float} {read : Option α} {a : α}

theorem echoes_ofFloat (x : Float) : Echoes [x] (ofFloat x).asFloat? x where
  same h := h x (List.mem_singleton_self x)
  eq_none_iff := (reread?_eq_none_iff x).trans (by simp)

theorem echoes_pure (a : α) : Echoes [] (some a) a where
  same _ := rfl
  eq_none_iff := by simp

/-- One part of a value is read after the other. -/
theorem Echoes.bind {next : α → Option β} {f : α → β} (h : Echoes numbers read a)
    (hnext : ∀ b, Echoes more (next b) (f b)) :
    Echoes (numbers ++ more) (read.bind next) (f a) where
  same hsame := by
    obtain ⟨hnumbers, hmore⟩ := List.forall_mem_append.1 hsame
    rw [h.same hnumbers]
    exact (hnext a).same hmore
  eq_none_iff := by
    simp only [List.mem_append, or_and_right, exists_or, ← h.eq_none_iff]
    cases read with
    | none => simp
    | some b => simpa using (hnext b).eq_none_iff

theorem Echoes.map (h : Echoes numbers read a) (f : α → β) :
    Echoes numbers (read.map f) (f a) where
  same hsame := congrArg (Option.map f) (h.same hsame)
  eq_none_iff := Option.map_eq_none_iff.trans h.eq_none_iff

/-- The last part of a value is read. -/
theorem Echoes.bind_pure (h : Echoes numbers read a) (f : α → β) :
    Echoes numbers (read.bind fun b => some (f b)) (f a) := by
  rw [← Function.comp_def, ← Option.map_eq_bind]
  exact h.map f

/-- A list is read item by item. -/
theorem echoes_map {numbers : α → List Float} {encode : α → Json} {decode : Json → Option α}
    (h : ∀ a, Echoes (numbers a) (decode (encode a)) a) (l : List α) :
    Echoes (l.flatMap numbers) (asList? decode (array (l.map encode))) l := by
  change Echoes _ ((l.map encode).mapM decode) l
  induction l with
  | nil => exact echoes_pure []
  | cons a l ih =>
    rw [List.map_cons, List.mapM_cons, List.flatMap_cons]
    exact (h a).bind (f := (· :: l)) fun b => ih.bind_pure (b :: ·)

end

end Json

/-! ## Drawings and canvases -/

open Json

/-- The coordinates of a point. -/
def Point.numbers (p : Point Float) : List Float := [p.x, p.y]

/-- The coordinates of the points of a primitive. -/
def Primitive.numbers (p : Primitive Float) : List Float := p.points.flatMap Point.numbers

def BoundingBox.numbers (b : BoundingBox Float) : List Float := [b.xMin, b.xMax, b.yMin, b.yMax]

def Drawing.numbers (d : Drawing Float) : List Float :=
  d.primitives.flatMap Primitive.numbers ++ (d.bbox.numbers ++ [d.originX])

def Subplot.numbers (s : Subplot Float) : List Float := s.drawing.numbers ++ [s.originX]

def Canvas.numbers (c : Canvas Float) : List Float :=
  c.subplots.flatMap Subplot.numbers ++ c.bbox.numbers

theorem Point.echoes (p : Point Float) : Echoes p.numbers (ofJson? p.toJson) p :=
  ((echoes_ofFloat p.x).bind (f := fun x => (x, p.y)) fun x =>
    (echoes_ofFloat p.y).bind_pure (Prod.mk x)).map fun q => mk q.1 q.2

theorem BoundingBox.echoes (b : BoundingBox Float) : Echoes b.numbers (ofJson? b.toJson) b := by
  have hfields : b.toJson.record? ["x_min", "x_max", "y_min", "y_max"] =
      some [.ofFloat b.xMin, .ofFloat b.xMax, .ofFloat b.yMin, .ofFloat b.yMax] :=
    record?_ofMembers _ (by simp)
  rw [ofJson?, hfields]
  exact (echoes_ofFloat b.xMin).bind (f := fun xMin => { b with xMin }) fun xMin =>
    (echoes_ofFloat b.xMax).bind (f := fun xMax => { b with xMin, xMax }) fun xMax =>
    (echoes_ofFloat b.yMin).bind (f := fun yMin => { b with xMin, xMax, yMin }) fun yMin =>
    (echoes_ofFloat b.yMax).bind_pure (mk xMin xMax yMin)

namespace Primitive

theorem echoes_move (start stop : Point Float) :
    Echoes (start.numbers ++ stop.numbers) (moveOfJson? (moveToJson start stop)) (start, stop) := by
  have hfields : (moveToJson start stop).record? ["from", "to"] =
      some [start.toJson, stop.toJson] :=
    record?_ofMembers _ (by simp)
  rw [moveOfJson?, hfields]
  exact start.echoes.bind (f := fun start => (start, stop)) fun start =>
    stop.echoes.bind_pure (Prod.mk start)

theorem echoes_point (name : String) (p : Point Float) :
    Echoes p.numbers (pointOfJson? name (.ofMembers [(name, p.toJson)])) p := by
  have hfields : (Json.ofMembers [(name, p.toJson)]).record? [name] = some [p.toJson] :=
    record?_ofMembers [(name, p.toJson)] (by simp)
  rw [pointOfJson?, hfields]
  exact p.echoes

theorem echoes (p : Primitive Float) : Echoes p.numbers (ofJson? p.toJson) p := by
  cases p with
  | segment start stop => exact (echoes_move start stop).map fun q => segment q.1 q.2
  | travel start stop => exact (echoes_move start stop).map fun q => travel q.1 q.2
  | restore stop => exact (echoes_point "to" stop).map restore
  | polygonBegin origin => exact (echoes_point "origin" origin).map polygonBegin
  | polygonEnd => exact echoes_pure _

end Primitive

theorem Drawing.echoes (d : Drawing Float) : Echoes d.numbers (ofJson? d.toJson) d := by
  have hfields : d.toJson.record? ["primitives", "bbox", "origin_x"] =
      some [.array (d.primitives.map Primitive.toJson), d.bbox.toJson, .ofFloat d.originX] :=
    record?_ofMembers _ (by simp)
  rw [ofJson?, hfields]
  exact (echoes_map Primitive.echoes d.primitives).bind
      (f := fun primitives => { d with primitives }) fun primitives =>
    d.bbox.echoes.bind (f := fun bbox => { d with primitives, bbox }) fun bbox =>
    (echoes_ofFloat d.originX).bind_pure (mk primitives bbox)

theorem Subplot.echoes (s : Subplot Float) : Echoes s.numbers (ofJson? s.toJson) s := by
  have hfields : s.toJson.record? ["drawing", "origin_x", "label"] =
      some [s.drawing.toJson, .ofFloat s.originX, .ofString s.label] :=
    record?_ofMembers _ (by simp)
  rw [ofJson?, hfields]
  exact s.drawing.echoes.bind (f := fun drawing => { s with drawing }) fun drawing =>
    (echoes_ofFloat s.originX).bind_pure fun originX => mk drawing originX s.label

theorem Canvas.echoes (c : Canvas Float) : Echoes c.numbers (ofJson? c.toJson) c := by
  have hfields : c.toJson.record? ["subplots", "bbox"] =
      some [.array (c.subplots.map Subplot.toJson), c.bbox.toJson] :=
    record?_ofMembers _ (by simp)
  rw [ofJson?, hfields]
  exact (echoes_map Subplot.echoes c.subplots).bind
      (f := fun subplots => { c with subplots }) fun subplots =>
    c.bbox.echoes.bind_pure (mk subplots)

/-! ## Documents -/

namespace Json

/-- What is read of a document, or the error. -/
def readAs {α : Type} (decode : Json → Option α) (document : String) : Except Error α :=
  match (parse? document).bind decode with
  | some a => .ok a
  | none => .error .document

/-- A value can be written. The text is read as the value if each of its numbers is read as
    itself, and refused just if one of them is not finite. -/
structure Survives {α : Type} (numbers : List Float) (j : Json)
    (read : String → Except Error α) (a : α) : Prop where
  written : parse? j.render = some j
  same : (∀ x ∈ numbers, reread? x = some x) → read j.render = .ok a
  refused_iff : read j.render = .error .document ↔ ∃ x ∈ numbers, ¬ x.isFinite

theorem Echoes.survives {α : Type} {numbers : List Float} {j : Json} {decode : Json → Option α}
    {a : α} (h : Echoes numbers (decode j) a) (hj : j.IsWritten) :
    Survives numbers j (readAs decode) a := by
  have hparse : parse? j.render = some j := parse?_render hj
  have hread : readAs decode j.render =
      match decode j with
      | some a => .ok a
      | none => .error .document := by
    rw [readAs, hparse]
    rfl
  refine ⟨hparse, fun hsame => ?_, ?_⟩
  · rw [hread, h.same hsame]
  · rw [hread, ← h.eq_none_iff]
    cases decode j <;> simp

end Json

theorem Point.isWritten_toJson (p : Point Float) : p.toJson.IsWritten :=
  .array (by simp [isWritten_ofFloat])

theorem Primitive.isWritten_toJson (p : Primitive Float) : p.toJson.IsWritten := by
  have hmember : ∀ name {j : Json}, j.IsWritten → (Json.ofMembers [(name, j)]).IsWritten :=
    fun name j hj => isWritten_ofMembers (by simpa using hj)
  have hmove : ∀ start stop, (moveToJson start stop).IsWritten := fun start stop =>
    isWritten_ofMembers (by simp [Point.isWritten_toJson])
  cases p with
  | segment start stop => exact hmember _ (hmove start stop)
  | travel start stop => exact hmember _ (hmove start stop)
  | restore stop => exact hmember _ (hmember _ stop.isWritten_toJson)
  | polygonBegin origin => exact hmember _ (hmember _ origin.isWritten_toJson)
  | polygonEnd => exact .string _

theorem BoundingBox.isWritten_toJson (b : BoundingBox Float) : b.toJson.IsWritten :=
  isWritten_ofMembers (by simp [isWritten_ofFloat])

theorem Drawing.isWritten_toJson (d : Drawing Float) : d.toJson.IsWritten :=
  isWritten_ofMembers (by
    simp [isWritten_ofFloat, isWritten_array_map Primitive.isWritten_toJson,
      BoundingBox.isWritten_toJson])

theorem Subplot.isWritten_toJson (s : Subplot Float) : s.toJson.IsWritten :=
  isWritten_ofMembers (by
    simpa [isWritten_ofFloat, Drawing.isWritten_toJson] using .string _)

theorem Canvas.isWritten_toJson (c : Canvas Float) : c.toJson.IsWritten :=
  isWritten_ofMembers (by
    simp [isWritten_array_map Subplot.isWritten_toJson, BoundingBox.isWritten_toJson])

theorem Drawing.ofDocument_eq : ofDocument = readAs ofJson? := by
  funext document
  rw [ofDocument, readAs]
  cases (parse? document).bind ofJson? <;> rfl

theorem Canvas.ofDocument_eq : ofDocument = readAs ofJson? := by
  funext document
  rw [ofDocument, readAs]
  cases (parse? document).bind ofJson? <;> rfl

/-- Canvases, drawings, subplots and lists of primitives can be written, whatever is in them.
    They are read back if their numbers are, and refused just if some number in them is not
    finite: a coordinate of a point, a bound or an origin. -/
theorem canvases_survive :
    (∀ c : Canvas Float, Survives c.numbers c.toJson Canvas.ofDocument c) ∧
    (∀ d : Drawing Float, Survives d.numbers d.toJson Drawing.ofDocument d) ∧
    (∀ s : Subplot Float, Survives s.numbers s.toJson (readAs Subplot.ofJson?) s) ∧
    ∀ l : List (Primitive Float), Survives (l.flatMap Primitive.numbers)
      (.array (l.map Primitive.toJson)) (readAs (asList? Primitive.ofJson?)) l := by
  rw [Canvas.ofDocument_eq, Drawing.ofDocument_eq]
  exact ⟨fun c => c.echoes.survives c.isWritten_toJson,
    fun d => d.echoes.survives d.isWritten_toJson, fun s => s.echoes.survives s.isWritten_toJson,
    fun l => (echoes_map Primitive.echoes l).survives
      (isWritten_array_map Primitive.isWritten_toJson l)⟩

/-- A leaf with a caption. -/
def Canvas.leaf (y : Float) : Canvas Float where
  subplots := [⟨⟨[.polygonBegin ⟨0, 0⟩, .segment ⟨0, 0⟩ ⟨0.5, -y⟩, .travel ⟨0.5, -y⟩ ⟨1, 0⟩,
    .polygonEnd, .restore ⟨0, 0⟩], ⟨0, 1, -y, 0⟩, 0⟩, 2.25, "Blättchen ❄"⟩]
  bbox := ⟨0, 3.25, -y, 0⟩

/-- All of a leaf is read, and nothing of one that points to nowhere. -/
theorem canvases_survive_leaf :
    Canvas.ofDocument (Canvas.leaf 0.1).toDocument = .ok (.leaf 0.1) ∧
      Canvas.ofDocument (Canvas.leaf (0 / 0)).toDocument = .error .document := by
  have hsame : ∀ x ∈ (Canvas.leaf 0.1).numbers, reread? x = some x := by decide +kernel
  have hnowhere : ∃ x ∈ (Canvas.leaf (0 / 0)).numbers, ¬ x.isFinite := by decide +kernel
  exact ⟨(canvases_survive.1 _).same hsame, (canvases_survive.1 _).refused_iff.2 hnowhere⟩

end Lindenmayer
