import Soundworks.Filter.Chain
/-!
Filter graphs that mix several inputs. A graph is a list of segments; each one reads labelled
streams, sends them through filters and defines one label.
-/

namespace Soundworks

/-- A part of a filter graph. -/
structure Segment where
  reads : List String
  body : String
  defines : String
  deriving DecidableEq

def bracketed (label : String) : String := "[" ++ label ++ "]"

def Segment.text (s : Segment) : String :=
  String.join (s.reads.map bracketed) ++ s.body ++ bracketed s.defines

/-- Why there is nothing to mix. -/
inductive MixError where
  | noInputs
  | noLayers
  deriving DecidableEq

def MixError.message : MixError → String
  | .noInputs => "no_inputs: Layering needs at least one input."
  | .noLayers => "no_layers: Layering needs at least one layer."

namespace Mix

def inputLabel (i : Nat) : String := toString i ++ ":a"

def layerLabel (i : Nat) : String := "processed" ++ toString i

/-- The branch of a layer, which reads the input of the same index. -/
def branch (i : Nat) (l : Layer) : Segment where
  reads := [inputLabel i]
  body := Stage.text (if l.filters = [] then [.pass] else l.filters)
  defines := layerLabel i

/-- The branches of several layers, from an index on. -/
def branches : Nat → List Layer → List Segment
  | _, [] => []
  | i, l :: ls => branch i l :: branches (i + 1) ls

/-- The segment that mixes the first layers; the mix is as long as the longest of them. -/
def join (count : Nat) (label : String) : Segment where
  reads := (List.range count).map layerLabel
  body := "amix=inputs=" ++ toString count ++ ":duration=longest:dropout_transition=2"
  defines := label

/-- The graph that mixes one layer per input; layers without an input are left out. -/
def segments (inputs : Nat) (layers : List Layer) (label : String) :
    Except MixError (List Segment) :=
  if inputs = 0 then .error .noInputs
  else if layers = [] then .error .noLayers
  else
    let usable := layers.take inputs
    .ok (branches 0 usable ++ [join usable.length label])

end Mix

def graphText (segments : List Segment) : String :=
  ";".intercalate (segments.map Segment.text)

end Soundworks
