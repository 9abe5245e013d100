import AmigaGcc.Build.Clean
import AmigaGcc.Build.Display
import AmigaGcc.Build.Races
import AmigaGcc.Download.Refresh
import AmigaGcc.Header.Extract
import AmigaGcc.Header.Mark
import AmigaGcc.Library.Make.Rebuild
import AmigaGcc.Library.Make.Schedule
import AmigaGcc.Library.Make.Watch
import AmigaGcc.Mirror.Sources
import AmigaGcc.Multilib.Install
import AmigaGcc.Progress.State
import AmigaGcc.Recipe.Logging
import AmigaGcc.Recipe.Retry
import AmigaGcc.Registry.Checkout
import AmigaGcc.Registry.Commute
import AmigaGcc.Sdk.Order
import AmigaGcc.Sdk.Rerun
import AmigaGcc.Sdk.Stdargs
import AmigaGcc.Sdk.StubsLock
import AmigaGcc.Sdk.Tokens
import AmigaGcc.Library.History
import AmigaGcc.Registry.Date
