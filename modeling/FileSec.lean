import FileSec.Lib.PathTree
import FileSec.Tree
import FileSec.Atomicity
import FileSec.Shape
import FileSec.Durability
import FileSec.Refinement
import FileSec.Reopening
import FileSec.Symbolic
import FileSec.Store.History
import FileSec.Store.Suspects
import FileSec.Store.Launches
import FileSec.Store.Layout
import FileSec.Store.Recover
import FileSec.App.Listing
import FileSec.App.Adding
import FileSec.App.Visibility
import FileSec.App.Restore
import FileSec.Store.Whole
import FileSec.Tamper
import FileSec.Peer.Record
import FileSec.Peer.Agreement
import FileSec.Peer.Listener
import FileSec.Fsec.Conversion
import FileSec.Fsec.Exports
import FileSec.Fsec.Append
import FileSec.Peer.Contacts
import FileSec.Retry
import FileSec.Fragments
import FileSec.Canonical
import FileSec.Preflight
import FileSec.Fsec.VaultTree
import FileSec.Fsec.Arithmetic
import FileSec.Fsec.RandomAccess
import FileSec.Peer.TransferCode
import FileSec.Peer.Transfer
import FileSec.Extraction
import FileSec.Keys.Methods
import FileSec.Keys.Recovery
import FileSec.Keys.Bindings
import FileSec.Peer.Wire
import FileSec.Peer.RateLimiter
import FileSec.Peer.Armor
