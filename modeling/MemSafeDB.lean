import MemSafeDB.Sequential.Guarantees
import MemSafeDB.BTree.Contracts
import MemSafeDB.BugClasses.Table
import MemSafeDB.BugStudy.Agreement
import MemSafeDB.BugStudy.Scrape
import MemSafeDB.Benchmark.Attribution
import MemSafeDB.SkipList.Guarantees
import MemSafeDB.System.Restarts
import MemSafeDB.System.Descents
import MemSafeDB.BTree.PlainSearch
import MemSafeDB.BTree.PageHistory
import MemSafeDB.BTree.SeparatorChoice
import MemSafeDB.System.ResidentPages
import MemSafeDB.SkipList.Arena
import MemSafeDB.Benchmark.Sections
import MemSafeDB.System.FreshPages
import MemSafeDB.System.Trees
import MemSafeDB.BTree.Hints
import MemSafeDB.Benchmark.Mysql
import MemSafeDB.QueueBench.Items
import MemSafeDB.Concurrent.Waiting
import MemSafeDB.ResidentSet.Clock
