import PageTrie.Main
import PageTrie.Proofs.MapRefinement
import PageTrie.Proofs.Structure
import PageTrie.Proofs.Replacement
import PageTrie.Proofs.Traversal
import PageTrie.Proofs.StoreOutcome
import PageTrie.Proofs.InsertionOrder
import PageTrie.Proofs.CacheTransparency
import PageTrie.Proofs.SingleWriter
import PageTrie.Proofs.Page.OrderedList
import PageTrie.Proofs.SplitFrame
import PageTrie.Proofs.CommandLineMap
import PageTrie.Proofs.FaultFreedom
import PageTrie.Proofs.Page.Encoding
import PageTrie.Proofs.Page.Partition
import PageTrie.Proofs.Directory.Calls
import PageTrie.Proofs.TrieWalk
import PageTrie.Proofs.Session.Flag
import PageTrie.Proofs.PageSweep
import PageTrie.Proofs.Directory.GrowingSet
import PageTrie.Proofs.ScanAndDelete
import PageTrie.Proofs.ListingAgreement
import PageTrie.Proofs.Directory.FailedSet
import PageTrie.Proofs.ErrorFlag
import PageTrie.Proofs.Page.Room
import PageTrie.Proofs.RawPages
import PageTrie.Proofs.Directory.Bound
import PageTrie.Proofs.Storage.ReadBack
