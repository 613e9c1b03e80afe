import SiStultum.Library.Runs
import SiStultum.Library.IntLoop
import SiStultum.Library.Counting
import SiStultum.Library.ByteMemory
import SiStultum.PageFrames.Ownership
import SiStultum.PageFrames.BitmapPlace
import SiStultum.PageFrames.Exhaustion
import SiStultum.PageFrames.FirstFit
import SiStultum.PageFrames.Owners
import SiStultum.PageMap.Failure
import SiStultum.PageMap.Tables
import SiStultum.PageMap.Processor
import SiStultum.Kernel.IdentityMap
import SiStultum.Kernel.InterruptGates
import SiStultum.Boot.ExitKey
import SiStultum.Boot.Image
import SiStultum.Boot.FailedLoad
import SiStultum.Library.Numerals
import SiStultum.Formatter.Count
import SiStultum.Formatter.FormatEnd
import SiStultum.Formatter.SignedText
import SiStultum.Formatter.IsoField
import SiStultum.Text.Strtok
import SiStultum.Text.Ftoan
import SiStultum.Console.Grid
import SiStultum.Console.Clear
import SiStultum.Console.Display
import SiStultum.Kernel.Runs
