import Soundworks.Preset.Basic
/-!
The table of presets, and how it is searched by name and by category.
-/

namespace Soundworks.Preset

def normalized (target : Option Binary64) : Volume :=
  { normalize := some true, targetLufs := target }

def gameMobile : Preset where
  name := "game-audio-mobile"
  description := "Optimized for mobile game audio - compressed and efficient"
  category := .game
  container := .m4a
  operations :=
    { format := some
        { sampleRate := some .hz22050
          bitrateKbps := some 128
          channels := some .stereo
          codec := some .aac }
      volume := some (normalized (some (-16))) }

def gameDesktop : Preset where
  name := "game-audio-desktop"
  description := "High-quality audio for desktop games"
  category := .game
  container := .ogg
  operations :=
    { format := some
        { sampleRate := some .hz44100
          bitrateKbps := some 192
          channels := some .stereo
          codec := some .vorbis }
      volume := some (normalized (some (-18))) }

def gameConsole : Preset where
  name := "game-audio-console"
  description := "Premium quality for console gaming platforms"
  category := .game
  container := .wav
  operations :=
    { format := some
        { sampleRate := some .hz48000, channels := some .stereo, codec := some .pcm }
      volume := some (normalized (some (-20))) }

def elevenLabs : Preset where
  name := "elevenLabs-optimize"
  description := "Optimizes ElevenLabs AI voice output for game integration"
  category := .voice
  container := .mp3
  operations :=
    { format := some
        { sampleRate := some .hz22050
          bitrateKbps := some 160
          channels := some .mono
          codec := some .mp3 }
      volume := some (normalized (some (-20)))
      effects := some { fadeInSec := some 0.05, fadeOutSec := some 0.1 } }

def voice : Preset where
  name := "voice-processing"
  description := "General voice and dialogue processing"
  category := .voice
  container := .mp3
  operations :=
    { format := some
        { sampleRate := some .hz22050
          bitrateKbps := some 128
          channels := some .mono
          codec := some .mp3 }
      volume := some (normalized (some (-23)))
      effects := some { fadeInSec := some 0.02, fadeOutSec := some 0.05 } }

def mastering : Preset where
  name := "music-mastering"
  description := "High-quality music mastering preset"
  category := .music
  container := .flac
  operations :=
    { format := some
        { sampleRate := some .hz44100, channels := some .stereo, codec := some .flac }
      volume := some (normalized (some (-14))) }

def soundEffects : Preset where
  name := "sfx-optimization"
  description := "Optimized for sound effects and ambient audio"
  category := .effects
  container := .ogg
  operations :=
    { format := some
        { sampleRate := some .hz44100
          bitrateKbps := some 160
          channels := some .mono
          codec := some .vorbis }
      volume := some (normalized (some (-18))) }

def deepMechanical : Preset where
  name := "deep-mechanical"
  description := "Deep, mechanical sound with harmonic richness"
  category := .advanced
  container := .wav
  operations :=
    { advanced := some
        { pitch := some { semitones := -3, preserveFormants := some true }
          harmonics := some { octaveDown := some 0.3, fifthUp := some 0.2 }
          spectral := some { bassBoost := some 4, midCut := some (-2), warmth := some 0.4 }
          dynamics := some
            { compressor := some { threshold := -18, ratio := 3, attack := 5, release := 100 } } }
      volume := some (normalized (some (-18))) }

def brightCrystalline : Preset where
  name := "bright-crystalline"
  description := "Bright, crystalline sound with sparkle"
  category := .advanced
  container := .wav
  operations :=
    { advanced := some
        { pitch := some { semitones := 2 }
          harmonics := some { octaveUp := some 0.25, thirdUp := some 0.15 }
          spectral := some
            { trebleBoost := some 5, brightness := some 0.6, warmth := some 0.2 }
          modulation := some { chorus := some { rate := 0.5, depth := 0.3, delayMs := 15 } } }
      volume := some (normalized (some (-16))) }

def variationPack : Preset where
  name := "variation-pack"
  description := "Generate 5 variations with controlled randomness"
  category := .advanced
  container := .wav
  operations :=
    { advanced := some
        { variations := some
            { count := 5
              pitchRange := some 2
              volumeRange := some 3
              spectralRange := some 2
              seed := some 42 } }
      volume := some (normalized none) }

def layeredImpact : Preset where
  name := "layered-impact"
  description := "Self-layered sound for maximum impact"
  category := .advanced
  container := .wav
  operations :=
    { advanced := some
        { layering := some
            { layers :=
                [{ blend := .mix, volume := some 0.8 },
                  { blend := .add
                    volume := some 0.4
                    pitchSemitones := some 12
                    delayMs := some 50 },
                  { blend := .add
                    volume := some 0.3
                    pitchSemitones := some (-12)
                    delayMs := some 25 }] }
          dynamics := some
            { compressor := some { threshold := -12, ratio := 4, attack := 1, release := 50 }
              limiter := some { threshold := -6, release := some 30 } } }
      volume := some (normalized (some (-14))) }

def spaceAmbient : Preset where
  name := "space-ambient"
  description := "Spacious, ambient processing with modulation"
  category := .advanced
  container := .wav
  operations :=
    { advanced := some
        { spatial := some
            { stereoWidth := some 1.5
              reverbSend := some 0.4
              delayTimeMs := some 150
              delayFeedback := some 0.25 }
          modulation := some
            { tremolo := some { rate := 0.3, depth := 0.2 }
              chorus := some { rate := 0.2, depth := 0.4, delayMs := 25 } }
          spectral := some { warmth := some 0.5, brightness := some 0.3 } }
      volume := some (normalized (some (-20))) }

def punchyGame : Preset where
  name := "punchy-game-sfx"
  description := "Tight, punchy sound optimized for game audio"
  category := .advanced
  container := .wav
  operations :=
    { advanced := some
        { dynamics := some
            { gate := some
                { threshold := -40, ratio := 10, attack := some 1, release := some 10 }
              compressor := some
                { threshold := -20, ratio := 6, attack := 0.5, release := 25, knee := some 4 }
              limiter := some { threshold := -3, release := some 5 } }
          spectral := some { bassBoost := some 2, trebleBoost := some 3 } }
      effects := some { fadeInSec := some 0.001, fadeOutSec := some 0.02 }
      volume := some (normalized (some (-16))) }

/-- All presets, in the order in which they are listed. -/
def table : List Preset :=
  [gameMobile, gameDesktop, gameConsole, elevenLabs, voice, mastering, soundEffects,
    deepMechanical, brightCrystalline, variationPack, layeredImpact, spaceAmbient, punchyGame]

def find? (name : String) : Option Preset := table.find? fun p => p.name = name

def unknownMessage (name : String) : String :=
  "unknown_preset: '" ++ name ++ "' is not a preset. Available: " ++
    ", ".intercalate (table.map (·.name))

/-- The presets of a category, or all of them. -/
def inCategory : Option String → List Preset
  | none => table
  | some category => table.filter fun p => p.category.name = category

end Soundworks.Preset
