import AtomTransport.Format.Placement
import AtomTransport.Format.Program

/-!
# Reports

Short JSON views of what the library computes, for other programs to read. A location is a pair, a
lane is its text, and an atom is a row of its qubit, its location, its number of moves and its last
lane.
-/

namespace AtomTransport

def Location.report (l : Location) : Json := .arr [.ofNat l.word, .ofNat l.site]

def Lane.report (l : Lane) : Json := .str l.text

def Signature.report (s : Signature) : Json :=
  .arr [.str s.kind.text, .ofNat s.bus, .str s.direction.text]

def Atoms.report (a : Atoms) : Json :=
  .ofList (fun (x : Atom) => .arr [.ofNat x.qubit, .ofNat x.location.word, .ofNat x.location.site,
    .ofNat x.moves, .ofOption Lane.report x.lastLane]) a.list

def Scalar.report : Scalar → Json
  | bool b => .obj [("bool", .bool b)]
  | int n => .obj [("int", .int n)]
  | float x => .obj [("float", .float x)]

mutual

def Value.report : Value → Json
  | .unknown => .str "unknown"
  | .bottom => .str "bottom"
  | .scalar s => s.report
  | .atoms a => .obj [("state", a.report)]
  | .measured a => .obj [("future", a.report)]
  | .result q => .obj [("result", .ofNat q)]
  | .list items => .obj [("list", .arr (Value.reports items))]

def Value.reports : List Value → List Json
  | [] => []
  | v :: vs => v.report :: Value.reports vs

end

mutual

def Outcome.report : Outcome → Json
  | .none => .null
  | .scalar s => s.toJson
  | .list items => .arr (Outcome.reports items)

def Outcome.reports : List Outcome → List Json
  | [] => []
  | o :: os => o.report :: Outcome.reports os

end

def Shot.report (s : Shot) : Json :=
  .obj [("value", s.value.report), ("detectors", .ofList .bool s.detectors),
    ("observables", .ofList .bool s.observables)]

def Analysis.reportMembers (a : Analysis) : List (String × Json) :=
  [("states", .ofList (fun (p, v) => .arr [.str (Point.text p), v.report]) a.states),
    ("return", a.returned.report),
    ("detectors", .ofList (fun (p, d) => .obj [("point", .str (Point.text p)),
      ("measurements", d.measurements.report),
      ("coordinates", .ofList .float d.coordinates)]) a.detectors),
    ("observables", .ofList (fun (p, o) => .obj [("point", .str (Point.text p)),
      ("measurements", o.measurements.report), ("index", .ofNat o.index)]) a.observables)]

def Pairing.report (p : Pairing) : Json :=
  .obj [("controls", .ofList .ofNat p.controls), ("targets", .ofList .ofNat p.targets),
    ("unpaired", .ofList .ofNat p.unpaired)]

def Path.report (p : Path) : Json :=
  .obj [("src", p.start.report), ("dst", p.finish.report), ("len", .ofNat p.length),
    ("empty", .bool p.isEmpty), ("lanes", .ofList Lane.report p.lanes),
    ("locations", .ofList Location.report p.locations)]

def Path.reportAll (paths : List (Qubit × Path)) : Json :=
  .ofList (fun (q, p) => .arr [.ofNat q, .ofList Location.report p.locations,
    .ofList Lane.report p.lanes]) paths

def Route.report (r : Route) : Json :=
  .obj [("align", .ofList (fun s => s.lane.report) r.align),
    ("cross", .ofOption (fun s => s.lane.report) r.cross),
    ("settle", .ofList (fun s => s.lane.report) r.settle), ("len", .ofNat r.length),
    ("empty", .bool r.isEmpty), ("dst", r.finish.report),
    ("visited", .ofList Location.report r.visited),
    ("word_pair", .ofOption (fun (a, b) => .arr [.ofNat a, .ofNat b]) r.wordPair?),
    ("signature", .ofList Signature.report r.signatures), ("path", r.toPath.report)]

def Placement.report (p : Placement) : Json :=
  .obj [("layout", .ofList Location.report p.layout),
    ("occupied", .ofList Location.report p.occupied), ("move_count", .ofList (fun n : UInt32 => .ofNat n) p.moves)]

def PlacementInfo.report : PlacementInfo → Json
  | nothing => .str "not_state"
  | anything => .str "any_state"
  | known p => p.report

def LayerPlacement.report (l : LayerPlacement) : Json :=
  .obj [("index", .ofNat l.index), ("static", .bool l.isStatic), ("before", l.before.report),
    ("after", l.after.report), ("paths", Path.reportAll l.paths)]

end AtomTransport
