import Ppr.Invariants.NamesKept
import Ppr.Pprdrv.Tbcp
import Ppr.Libppr.IppObj
import Ppr.Libppr.IppParse
import Ppr.Libppr.IppRequest
import Ppr.Spool.Pages
import Ppr.Spool.PagesWritten
import Ppr.Spool.PagesRead
import Ppr.Lib.Loops
import Ppr.Pprdrv.Pages
import Ppr.Pprdrv.Copies
import Ppr.Pprdrv.Places
import Ppr.Pprdrv.EveryCopy
import Ppr.Pprdrv.Charge
import Ppr.Pprdrv.Charged
import Ppr.Libppr.IppReply
import Ppr.Libppr.IppGrammar
import Ppr.Libppr.IppSent
import Ppr.Libppr.IppReplyRead
import Ppr.Libppr.IppReplyFits
import Ppr.Libppr.Tokenize
import Ppr.Libppr.TokenizeBounds
import Ppr.Spool.Data
import Ppr.Pprdrv.Text
import Ppr.Pprdrv.DataBlocks
import Ppr.Libppr.IntCopyJob
import Ppr.Libppr.IntCopyKept
import Ppr.Lprsrv.TakeJob
import Ppr.Spool.QueueShared
import Ppr.Lprsrv.ControlFile
import Ppr.Lprsrv.TakenWell
import Ppr.Pprdrv.Dgetline
import Ppr.Pprdrv.PageAlone
import Ppr.Libgu.Sscanf
import Ppr.Libppr.QEntryFile
import Ppr.Libppr.QEntryLines
import Ppr.Libppr.QEntryRoundTrip
import Ppr.Libppr.QEntryKept
import Ppr.Ppad.ConfEdits
import Ppr.Spool.StatusFile
import Ppr.Spool.StatusFollowed
import Ppr.Invariants.Bounds
import Ppr.Invariants.Stops
import Ppr.Invariants.Configured
import Ppr.Invariants.Linked
import Ppr.Proof.Avoids
import Ppr.Invariants.Flagged
import Ppr.Invariants.Canceled
import Ppr.Pprdrv.Escaped
import Ppr.Libppr.Options
import Ppr.Libppr.QuotedValue
import Ppr.Pprdrv.Signature
import Ppr.Libppr.OptionsReadBack
import Ppr.Lprsrv.ControlBounds
import Ppr.Libgu.Strings
import Ppr.Libppr.ReadPpd
import Ppr.Pprdrv.Ppd
import Ppr.Pprdrv.PrinterConf
import Ppr.Pprdrv.Precedence
import Ppr.Pprdrv.Features
import Ppr.Pprdrv.Resources
import Ppr.Pprdrv.Capable
import Ppr.Pprdrv.Honest
import Ppr.Libppr.Pagemask
import Ppr.Libppr.PagesSelected
import Ppr.Libgu.Wildmat
import Ppr.Libppr.Acl
import Ppr.Libppr.Jobname
import Ppr.Spool.BinaryTokens
import Ppr.Pprdrv.Progress
import Ppr.Lib.Pending
import Ppr.Spool.Things
import Ppr.Spool.PagesNamed
import Ppr.Ppad.Switchset
import Ppr.Ppad.SwitchsetReplayed
import Ppr.Ppad.ListToString
import Ppr.Pprd.QueueScan
import Ppr.Pprdrv.QueueReader
import Ppr.Spool.QueueText
import Ppr.Spool.Overwritten
import Ppr.Spool.Requirements
import Ppr.Spool.ResLines
import Ppr.Pprd.MediaRestored
import Ppr.Spool.Quoted
import Ppr.Spool.PjlHeader
import Ppr.Spool.Split
import Ppr.Spool.SplitWell
import Ppr.Spool.FilterOptions
import Ppr.Spool.FilterMerged
import Ppr.Spool.Deferred
import Ppr.Spool.DeferredKept
import Ppr.Spool.DeferredLists
import Ppr.Spool.DeferredValues
import Ppr.Spool.Nest
import Ppr.Spool.Nested
import Ppr.Libgu.Timeval
import Ppr.Libgu.Utf8Decode
import Ppr.Lib.Words
import Ppr.Libgu.Wordwrap
import Ppr.Pprdrv.Writemon
import Ppr.Pprdrv.PageTime
import Ppr.Libgu.Pcs
import Ppr.Libgu.PcsValues
import Ppr.Libgu.PcsCopied
import Ppr.Libgu.PcsRuns
import Ppr.Libppr.Query
import Ppr.Libppr.QueryStreams
import Ppr.Libppr.QueryOut
import Ppr.Libppr.QueryErr
import Ppr.Libppr.QueryLines
import Ppr.Lib.Ber
import Ppr.Libgu.SnmpRequest
import Ppr.Libgu.IniSection
import Ppr.Lib.Postscript
import Ppr.Dotmatrix.Movement
import Ppr.Libppr.AddrCache
import Ppr.Pprdrv.Tray
import Ppr.Lib.Chained
import Ppr.Libgu.Pch
import Ppr.Libppr.PrinterInfo
import Ppr.Libppr.QueueInfo
import Ppr.Libppr.GroupCapabilities
import Ppr.Libppr.CodesAgreed
import Ppr.Libppr.Aliases
import Ppr.Lib.PsFilters
import Ppr.Dotmatrix.Graphics
import Ppr.Dotmatrix.Packing
import Ppr.Dotmatrix.GraphicsRoundTrip
import Ppr.Dotmatrix.Linebuf
import Ppr.Dotmatrix.LinebufRead
import Ppr.Lib.Paths
import Ppr.Pprdrv.ResourceFiles
import Ppr.Libttf.Sfnts
import Ppr.Libttf.SfntStrings
import Ppr.Libttf.SfntTables
import Ppr.Libttf.SfntsValid
import Ppr.Libttf.SfntLayout
import Ppr.Libttf.SfntsContent
import Ppr.Libttf.SfntsReduced
import Ppr.Libgu.Pca
import Ppr.Lib.Linked
import Ppr.Libgu.PchMap
import Ppr.FilterLp.Readline
import Ppr.FilterLp.Passes
import Ppr.FilterLp.Bounds
import Ppr.FilterLp.ReadersEnd
import Ppr.FilterLp.PassesEnd
import Ppr.Libgu.WildmatLanguage
import Ppr.Invariants.Strays
import Ppr.Invariants.Counted
import Ppr.Invariants.Order
