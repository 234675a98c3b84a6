import AtomTransport.Device

/-!
# Grid devices

A grid has equal words of two blocks of sites. Site `i` on the left and site `i + columns` on the
right interact. Site bus `k` takes the left site `i` to the right site `(i + k) % columns`, and word
bus `k` takes the right sites of word `w` to word `w + k + 1`. All words form one zone and may run
every bus together.
-/

namespace AtomTransport

namespace Blueprint

/-- Micrometres between neighbouring sites, inside a pair, and between words. -/
def sitePitch : Nat := 10
def pairGap : Nat := 2
def wordPitch : Nat := 20

def gridWord (columns word : Nat) : Word :=
  let y := Binary64.ofNat (word * wordPitch)
  let left := (List.range columns).map fun i => (Binary64.ofNat (i * sitePitch), y)
  let right := (List.range columns).map fun i => (Binary64.ofNat (i * sitePitch + pairGap), y)
  (List.range columns).foldl (fun w i => w.pair i (i + columns)) { sites := left ++ right }

def grid (words columns : Nat) : Blueprint :=
  let all := List.range words
  let table : Compatibility := all.map fun w => (w, all)
  { words := all.map (gridWord columns)
    zones := [all]
    siteBusWords := all
    wordBusSites := List.range' columns columns
    siteBuses := (List.range columns).map fun k =>
      ⟨List.range columns, (List.range columns).map fun i => columns + (i + k) % columns⟩
    wordBuses := (List.range' 1 (words - 1)).map fun k =>
      ⟨List.range (words - k), List.range' k (words - k)⟩
    siteBusCompatibility := table
    wordBusCompatibility := table }

end Blueprint

namespace Device

def grid (words columns : Nat) : Except BlueprintError Device :=
  ofBlueprint (Blueprint.grid words columns)

def presets : List (String × Nat × Nat) :=
  [("logical", 2, 5), ("grid4", 4, 5), ("grid8", 8, 8)]

def preset? (name : String) : Option (Except BlueprintError Device) :=
  (presets.lookup name).map fun (words, columns) => grid words columns

end Device

end AtomTransport
