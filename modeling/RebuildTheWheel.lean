import RebuildTheWheel.Data.SearchTree
import RebuildTheWheel.TinySTL.BinarySearchTree
import RebuildTheWheel.TinySTL.AvlTreeInsert
import RebuildTheWheel.CJson.Parse
import RebuildTheWheel.TinySTL.AvlTreeErase
import RebuildTheWheel.Data.Run
import RebuildTheWheel.Data.LinkedList
import RebuildTheWheel.Data.RedBlack
import RebuildTheWheel.Data.ParentTree
import RebuildTheWheel.TinySTL.AvlTree
import RebuildTheWheel.Data.Binary64
import RebuildTheWheel.Data.Decimal
import RebuildTheWheel.CJson.ParseTokens
import RebuildTheWheel.CJson.ParseRfc8259
import RebuildTheWheel.CJson.Print
import RebuildTheWheel.CJson.PrintParse
import RebuildTheWheel.CJson.PrintBuffered
import RebuildTheWheel.CJson.PrintBufferedText
import RebuildTheWheel.CJson.PrintBufferedCorrect
import RebuildTheWheel.CJson.ParseLiteral
import RebuildTheWheel.CJson.ParseBounds
import RebuildTheWheel.CJson.Heap
import RebuildTheWheel.CJson.Links
import RebuildTheWheel.CJson.Container
import RebuildTheWheel.CJson.ItemTree
import RebuildTheWheel.CJson.ContainerOps
import RebuildTheWheel.TinySTL.RbTree
import RebuildTheWheel.TinySTL.RbTreeFocus
import RebuildTheWheel.TinySTL.RbTreeInsert
import RebuildTheWheel.TinySTL.RbTreeRemove
import RebuildTheWheel.Data.Memory
import RebuildTheWheel.TinySTL.SizeClasses
import RebuildTheWheel.TinySTL.Alloc
import RebuildTheWheel.TinySTL.StlAlloc
import RebuildTheWheel.Data.Circular
import RebuildTheWheel.TinySTL.CircularBuffer
import RebuildTheWheel.TinySTL.UnorderedSet
import RebuildTheWheel.TinySTL.UnorderedSetRun
import RebuildTheWheel.TinySTL.LinkedList
import RebuildTheWheel.TinySTL.LinkedListOps
import RebuildTheWheel.TinySTL.LinkedListMerge
import RebuildTheWheel.TinySTL.LinkedListReverse
import RebuildTheWheel.Data.StableMerge
import RebuildTheWheel.TinySTL.LinkedListRun
import RebuildTheWheel.TinySTL.Deque
import RebuildTheWheel.TinySTL.DequeRun
import RebuildTheWheel.Data.RawMemory
import RebuildTheWheel.TinySTL.StlVector
import RebuildTheWheel.Data.Chunks
import RebuildTheWheel.TinySTL.Bitmap
import RebuildTheWheel.TinySTL.Graph
import RebuildTheWheel.Data.Classes
import RebuildTheWheel.TinySTL.UFSet
import RebuildTheWheel.Data.Owners
import RebuildTheWheel.TinySTL.Ref
import RebuildTheWheel.TinySTL.SharedPtr
import RebuildTheWheel.TinySTL.CowPtr
import RebuildTheWheel.Data.Heap
import RebuildTheWheel.TinySTL.Algorithm
import RebuildTheWheel.TinySTL.PriorityQueue
import RebuildTheWheel.TinySTL.TrieTree
import RebuildTheWheel.CJson.RebuildByPython
import RebuildTheWheel.CJson.RebuildByPythonObjects
import RebuildTheWheel.Data.CountingSort
import RebuildTheWheel.Data.Loop
import RebuildTheWheel.Data.Suffixes
import RebuildTheWheel.TinySTL.SuffixArray
import RebuildTheWheel.TinySTL.SuffixArraySort
import RebuildTheWheel.TinySTL.SuffixArrayRounds
import RebuildTheWheel.TinySTL.SuffixArrayGarbage
import RebuildTheWheel.TinySTL.Vector
import RebuildTheWheel.TinySTL.VectorRun
import RebuildTheWheel.Data.BlockOwners
import RebuildTheWheel.TinySTL.TString
import RebuildTheWheel.TinySTL.Storage
import RebuildTheWheel.Data.Path
import RebuildTheWheel.Httpd.Connection
import RebuildTheWheel.Httpd.Descriptors
import RebuildTheWheel.Webbench.Bench
import RebuildTheWheel.Nginx.Rbtree
import RebuildTheWheel.Nginx.RbtreeFocus
import RebuildTheWheel.Nginx.RbtreeInsert
import RebuildTheWheel.Nginx.RbtreeDelete
import RebuildTheWheel.Nginx.RbtreeRun
import RebuildTheWheel.Nginx.ComplexUri
import RebuildTheWheel.Data.PercentEncoding
import RebuildTheWheel.Nginx.ComplexUriNormal
import RebuildTheWheel.Data.Resumable
import RebuildTheWheel.Nginx.HeaderLine
import RebuildTheWheel.Nginx.RequestLine
import RebuildTheWheel.Nginx.ParseFragments
import RebuildTheWheel.Data.ByteRegion
import RebuildTheWheel.Nginx.Hash
import RebuildTheWheel.Nginx.HashFind
import RebuildTheWheel.Data.LongestMatch
import RebuildTheWheel.Nginx.HashWildcardFind
import RebuildTheWheel.Nginx.HashWildcardKeys
import RebuildTheWheel.Nginx.HashWildcardInit
import RebuildTheWheel.CJson.ParseOverrun
import RebuildTheWheel.Data.SmoothWeights
import RebuildTheWheel.Nginx.RoundRobin
import RebuildTheWheel.Nginx.RoundRobinProportion
import RebuildTheWheel.Nginx.RoundRobinRequests
import RebuildTheWheel.Data.LeakyBucket
import RebuildTheWheel.Nginx.LimitReq
import RebuildTheWheel.Data.BitTrie
import RebuildTheWheel.Nginx.RadixTree
import RebuildTheWheel.Nginx.RadixTreeMap
import RebuildTheWheel.Nginx.HpackTable
import RebuildTheWheel.Nginx.HpackEntries
import RebuildTheWheel.Nginx.HpackRuns
import RebuildTheWheel.Nginx.HpackDynamicTable
import RebuildTheWheel.Data.ChunkedCoding
import RebuildTheWheel.Nginx.ParseChunked
import RebuildTheWheel.Nginx.ParseChunkedBody
import RebuildTheWheel.Nginx.Palloc
import RebuildTheWheel.Nginx.ArrayUses
import RebuildTheWheel.Nginx.PoolRuns
import RebuildTheWheel.TinySTL.RbTreeTraversal
import RebuildTheWheel.TinySTL.TreeIter
import RebuildTheWheel.TinySTL.LinkedListSplice
import RebuildTheWheel.TinySTL.LinkedListSpliceRun
import RebuildTheWheel.TinySTL.LinkedListSort
import RebuildTheWheel.CJson.ParseNumber
import RebuildTheWheel.CJson.Duplicate
import RebuildTheWheel.CJson.DuplicateCorrect
import RebuildTheWheel.CJson.ParseHeap
import RebuildTheWheel.CJson.ParseHeapTree
import RebuildTheWheel.CJson.ParseHeapCorrect
import RebuildTheWheel.CJson.Minify
import RebuildTheWheel.CJson.MinifyText
import RebuildTheWheel.CJson.ParseLexemes
import RebuildTheWheel.CJson.MinifyParse
import RebuildTheWheel.CJson.PrintBlock
import RebuildTheWheel.CJson.PrintBlockCorrect
import RebuildTheWheel.Data.Runs
import RebuildTheWheel.TinySTL.LinkedListUnique
import RebuildTheWheel.TinySTL.VectorInsertElement
import RebuildTheWheel.TinySTL.DequeMapIndex
import RebuildTheWheel.TinySTL.DequeAdvance
import RebuildTheWheel.TinySTL.CircularBufferIter
import RebuildTheWheel.TinySTL.HeapCompare
import RebuildTheWheel.TinySTL.SortCorrect
import RebuildTheWheel.TinySTL.HeapOrder
import RebuildTheWheel.TinySTL.IsHeap
import RebuildTheWheel.TinySTL.IsPermutation
import RebuildTheWheel.TinySTL.Search
import RebuildTheWheel.Data.Scan
import RebuildTheWheel.TinySTL.StringFind
import RebuildTheWheel.TinySTL.StringFindLast
import RebuildTheWheel.TinySTL.StringCompare
import RebuildTheWheel.TinySTL.SuffixHeights
import RebuildTheWheel.Data.GraphSearch
import RebuildTheWheel.TinySTL.GraphSearch
import RebuildTheWheel.TinySTL.GraphBreadthFirst
import RebuildTheWheel.CJson.RebuildByPythonPrint
import RebuildTheWheel.Httpd.HeaderSection
import RebuildTheWheel.Httpd.PostBody
import RebuildTheWheel.Data.StringBuffer
import RebuildTheWheel.Webbench.BuildRequest
import RebuildTheWheel.Data.CyclicWindow
import RebuildTheWheel.Webbench.DirectRequest
import RebuildTheWheel.Nginx.ComplexUriPointers
import RebuildTheWheel.Nginx.RbtreeTimer
import RebuildTheWheel.Nginx.ParseChunkedSound
import RebuildTheWheel.Nginx.UnsafeUri
import RebuildTheWheel.Nginx.HttpArg
import RebuildTheWheel.Data.ByteRanges
import RebuildTheWheel.Nginx.RangeParse
import RebuildTheWheel.Nginx.InetAddr
import RebuildTheWheel.Nginx.Inet6RoundTrip
import RebuildTheWheel.Data.AddressPrefix
import RebuildTheWheel.Nginx.Cidr
import RebuildTheWheel.Data.Utf8Encoding
import RebuildTheWheel.Nginx.Utf8Decode
import RebuildTheWheel.Data.Base64
import RebuildTheWheel.Nginx.Base64
import RebuildTheWheel.Nginx.EscapeUri
import RebuildTheWheel.Data.Numeral
import RebuildTheWheel.Nginx.Atoi
import RebuildTheWheel.Nginx.ParseTime
import RebuildTheWheel.Nginx.EscapeText
import RebuildTheWheel.Nginx.HuffEncode
import RebuildTheWheel.Nginx.ChainUpdate
import RebuildTheWheel.Nginx.Vslprintf
import RebuildTheWheel.Data.GregorianDate
import RebuildTheWheel.Nginx.HttpTime
