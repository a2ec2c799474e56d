import Soundworks.Plan.Basic
/-!
The command line of the audio engine for a plan. The inputs come first, each with its start;
the output comes last.
-/

namespace Soundworks

/-- An option and its value, if there is one. -/
def optionArgs (name : String) : Option String → List String
  | some value => [name, value]
  | none => []

namespace Plan

def inputArgs (p : Plan) (inputs : List String) : List String :=
  inputs.flatMap fun path => optionArgs "-ss" (p.seek.map Binary64.plain) ++ ["-i", path]

/-- The arguments for the graph, or else for the filter chain. -/
def filterArgs (p : Plan) : List String :=
  match p.graph.filter (· ≠ "") with
  | some graph => ["-filter_complex", graph, "-map", bracketed (p.graphOutput.getD "None")]
  | none => if p.filters = [] then [] else ["-af", p.filterChain]

/-- The arguments for the output format; empty and zero settings are left out. -/
def formatArgs (p : Plan) : List String :=
  optionArgs "-ar" ((p.sampleRate.filter (· ≠ 0)).map toString) ++
    optionArgs "-ac" ((p.channels.filter (· ≠ 0)).map toString) ++
    optionArgs "-c:a" (p.codec.filter (· ≠ "")) ++ optionArgs "-b:a" (p.bitrate.filter (· ≠ ""))

def command (p : Plan) (binary : String) (inputs : List String) (output : String) :
    List String :=
  [binary, "-hide_banner", "-loglevel", "error", "-y"] ++ p.inputArgs inputs ++
    optionArgs "-t" (p.duration.map Binary64.plain) ++ p.filterArgs ++ p.formatArgs ++ [output]

end Plan

end Soundworks
