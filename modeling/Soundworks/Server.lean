import Soundworks.CommandLine.Run
import Soundworks.Tool.Action
/-!
The server: what it offers, how it is reached, and what its resources say. It answers one request
after the other with the tools of a studio.
-/

namespace Soundworks

/-- A resource that clients can read. -/
structure Resource where
  uri : String
  name : String
  mediaType : String
  deriving DecidableEq

/-- What a browser is allowed to do across origins. -/
structure CrossOrigin where
  origins : List String
  methods : List String
  headers : List String
  exposed : List String
  deriving DecidableEq

/-- How the application is served over HTTP. -/
structure HttpApp where
  path : String
  jsonResponse : Bool
  stateless : Bool
  transport : String
  deriving DecidableEq

/-- How a server is started. -/
inductive Start where
  | stdio
  | http (host : String) (port : Int) (app : HttpApp)
  deriving DecidableEq

namespace Server

def name : String := "Audio Tweaker"

def version : String := "1.0.0"

def infoResource : Resource := ⟨"config://server-info", "ServerInfo", "application/json"⟩

def presetResource : Resource := ⟨"audio-tweaker://presets", "PresetTable", "application/json"⟩

def resources : List Resource := [infoResource, presetResource]

def app : HttpApp where
  path := "/mcp"
  jsonResponse := true
  stateless := true
  transport := "streamable-http"

def crossOrigin : CrossOrigin where
  origins := ["*"]
  methods := ["GET", "POST", "DELETE", "OPTIONS"]
  headers := ["mcp-protocol-version", "mcp-session-id", "Authorization", "Content-Type"]
  exposed := ["mcp-session-id"]

def start (s : Settings) : Start :=
  match s.transport with
  | .stdio => .stdio
  | .http => .http s.host s.port app

def maxVariations : Nat := 20

def info (s : Surroundings) : Value :=
  .object
    [("name", .text name), ("version", .text version),
      ("advanced_enabled", .bool s.settings.advanced),
      ("concurrency", .integer s.settings.concurrency),
      ("engine_timeout_s", s.settings.engineTimeout.elim .null .number),
      ("ffmpeg_path", (s.host.engine? s.tree s.settings.enginePath).elim .null .text),
      ("max_layers", .integer maxLayers), ("max_variations", .integer maxVariations),
      ("supported_input_extensions", .list (supportedExtensions.map .text))]

def infoText (s : Surroundings) : String := Json.pretty (info s)

def presetText : String := Json.pretty (.list (Preset.table.map Preset.form.dump))

/-- Answers a request to its end, unless its jobs are held back. -/
def answer (s : Surroundings) (f : Floor) (t : Tool) (chosenSeed : Int) (a : Option Argument) :
    Option Response × Floor :=
  let p := Performer.ofEngine s.engine
  let (next, task) := f.ask p t chosenSeed a
  let f := Floor.complete p next
  (f.response? task, f)

end Server

end Soundworks
