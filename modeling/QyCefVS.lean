import QyCefVS.Library.Transitions
import QyCefVS.Library.Progress
import QyCefVS.Library.Counter
import QyCefVS.Library.Genealogy
import QyCefVS.Library.Ownership
import QyCefVS.Library.Pointers
import QyCefVS.Library.Garbage
import QyCefVS.Handler
import QyCefVS.BrowserList
import QyCefVS.LifeSpan
import QyCefVS.Session
import QyCefVS.Application
import QyCefVS.Quitting
import QyCefVS.MessageLoop
import QyCefVS.ClosingFlag
import QyCefVS.SingleWindow
import QyCefVS.References
import QyCefVS.ReferenceCycle
import QyCefVS.Shutdown
import QyCefVS.CleanExit
import QyCefVS.QuitCount
import QyCefVS.AnyOrder
import QyCefVS.ScopedRefptr
import QyCefVS.PointerProgram
import QyCefVS.ThreadedRelease
import QyCefVS.CallbackList
import QyCefVS.RemovalCallback
import QyCefVS.Notify
