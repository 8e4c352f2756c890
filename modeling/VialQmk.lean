import VialQmk.Hid.Firewall
import VialQmk.Hid.Unlock
import VialQmk.WearLeveling.Faults
import VialQmk.WearLeveling.PowerLoss
import VialQmk.WearLeveling.Total
import VialQmk.Keys.SourceLayers
import VialQmk.Hid.MatrixLeak
import VialQmk.Hid.MacroLock
import VialQmk.Hid.SettingsSync
import VialQmk.Hid.Init
import VialQmk.Hid.Mirrors
import VialQmk.Keys.MacroSend
import VialQmk.Keys.MacroNesting
import VialQmk.Keys.DynamicMacroSlots
import VialQmk.Keys.KeyOverrideBalance
import VialQmk.Keys.KeyOverrideHeld
import VialQmk.Keys.ComboBalance
import VialQmk.Keys.ComboConservation
import VialQmk.Painter.RoundTrip
import VialQmk.Lib.Reader
import VialQmk.Split.ExactlyOnce
import VialQmk.Keys.Secure
import VialQmk.Keys.UnlockRelease
import VialQmk.Keys.TappingOrder
import VialQmk.Lib.Trie
import VialQmk.Autocorrect.Typing
import VialQmk.Autocorrect.Bounds
import VialQmk.Eeprom.BulkWrite
import VialQmk.Keys.ComboFire
import VialQmk.Lib.LittleEndian
import VialQmk.Painter.Stream
import VialQmk.Painter.Complete
import VialQmk.Painter.FontLookup
import VialQmk.Flash.BackingStore
import VialQmk.Legacy.PowerLoss
import VialQmk.Split.RgbLight
import VialQmk.Split.RgbSync
import VialQmk.Lib.Explained
import VialQmk.Keys.OneshotLayer
import VialQmk.Keys.OneshotBalance
import VialQmk.Keys.MagicTapping
import VialQmk.Debounce.SymDefer
import VialQmk.Debounce.SymEager
import VialQmk.Debounce.AsymEagerDefer
import VialQmk.Keys.TapDanceCount
import VialQmk.Keys.TapDanceOrder
import VialQmk.Painter.Truncated
import VialQmk.Unicode.SendString
import VialQmk.Lib.Slots
import VialQmk.Keys.Report
import VialQmk.Lib.Checked
import VialQmk.Hid.MouseKeys
import VialQmk.Split.Rpc
import VialQmk.Keys.LayerLock
import VialQmk.Lib.Paired
import VialQmk.Sequencer.Notes
import VialQmk.Lib.Clock
import VialQmk.Deferred.Exec
import VialQmk.Deferred.Tokens
import VialQmk.Deferred.Early
import VialQmk.Keys.AutoShift
import VialQmk.Keys.AutoShiftKeystrokes
import VialQmk.Hid.VialRgb
import VialQmk.Drivers.EepromI2c
import VialQmk.Flash.Efl
import VialQmk.Midi.Notes
import VialQmk.Lib.BitsWithin
import VialQmk.Keys.OneshotModsRuns
import VialQmk.Lib.Chords
import VialQmk.Scan.Ghost
import VialQmk.Unicode.Ucis
import VialQmk.Keys.SendString
import VialQmk.Drivers.OledRuns
import VialQmk.Audio.ToneRuns
import VialQmk.Painter.Image
import VialQmk.Painter.ImageFrames
import VialQmk.RgbMatrix.Frame
import VialQmk.Lib.DigitalLine
import VialQmk.Painter.Drawing
import VialQmk.Painter.Rect
import VialQmk.Painter.Line
import VialQmk.Painter.Arc
import VialQmk.Painter.Ellipse
import VialQmk.Lib.Linked
import VialQmk.Painter.Animation
import VialQmk.RgbMatrix.Hits
import VialQmk.Audio.Melody
import VialQmk.Keys.WpmRuns
import VialQmk.Painter.Surface
import VialQmk.Painter.SurfaceDraw
import VialQmk.Lib.Pages
import VialQmk.Hid.SettingsQuery
import VialQmk.Lib.Crc
import VialQmk.Split.Crc
import VialQmk.Lib.Gray
import VialQmk.Scan.Quadrature
import VialQmk.Keys.ComboTimer
import VialQmk.Lib.Midpoint
import VialQmk.Painter.Circle
import VialQmk.Lib.Counting
import VialQmk.Rgblight.Effects
import VialQmk.Rgblight.Paint
import VialQmk.Rgblight.Snake
import VialQmk.Rgblight.Twinkle
import VialQmk.Rgblight.Runs
import VialQmk.Keys.CapsWord
import VialQmk.Keys.CapsWordHeld
import VialQmk.Keys.CapsWordRuns
import VialQmk.Keys.NothingStuck
import VialQmk.Split.MatrixLost
import VialQmk.Eeprom.PowerLoss
