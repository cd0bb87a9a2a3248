import LightSearch.Lib.Cxx
import LightSearch.Lib.Trim
import LightSearch.Lib.Decimal
import LightSearch.Lib.Utf8
import LightSearch.Lib.Sql
import LightSearch.Lib.Container
import LightSearch.Lib.Run
import LightSearch.Lib.Recency
import LightSearch.Lib.Json
import LightSearch.Lib.Posix
import LightSearch.Lib.Threads
import LightSearch.Lib.Multimap
import LightSearch.Lib.Cosine
import LightSearch.Lib.Regex
import LightSearch.Lib.Scan
import LightSearch.Lib.Levenshtein
import LightSearch.Lib.Greedy
import LightSearch.Lib.Heap
import LightSearch.Lib.Span
import LightSearch.Lib.Trie
import LightSearch.Lib.BestPath
import LightSearch.Lib.Majority
import LightSearch.Utility.LRUCache
import LightSearch.Utility.LRUInvariant
import LightSearch.Utility.LRURefinement
import LightSearch.Utility.LRUContents
import LightSearch.Utility.CacheFile
import LightSearch.Utility.CacheManager
import LightSearch.Utility.CacheInterleaving
import LightSearch.Utility.Query
import LightSearch.Dict.Recommender
import LightSearch.Dict.EditDistance
import LightSearch.Dict.EditTable
import LightSearch.Dict.Keywords
import LightSearch.Dict.Ranking
import LightSearch.IndexGen.Dictionary
import LightSearch.IndexGen.EnIndex
import LightSearch.IndexGen.EnWords
import LightSearch.IndexGen.BuiltDictionary
import LightSearch.IndexGen.CnIndex
import LightSearch.IndexGen.CnCandidates
import LightSearch.IndexGen.CnStatements
import LightSearch.PageLib.PageLibPreprocessor
import LightSearch.PageLib.Weights
import LightSearch.PageLib.InvertLib
import LightSearch.PageLib.ExactWeights
import LightSearch.PageLib.Simhasher
import LightSearch.PageLib.RedundantPages
import LightSearch.Utility.WebPageQuery
import LightSearch.Utility.PageSearch
import LightSearch.Utility.PageRanking
import LightSearch.Utility.CosineOrder
import LightSearch.Utility.Divisors
import LightSearch.Utility.PageOrder
import LightSearch.Utility.PageResult
import LightSearch.Utility.PageHistory
import LightSearch.Utility.PageWindows
import LightSearch.Utility.PageSnippets
import LightSearch.Utility.PageHighlight
import LightSearch.Utility.Literals
import LightSearch.PageLib.RssFeed
import LightSearch.Server.ProtocolParser
import LightSearch.Server.SearchServer
import LightSearch.Server.Restart
import LightSearch.Server.Answers
import LightSearch.Server.SocketIO
import LightSearch.Server.TcpConnection
import LightSearch.Client.SocketIO
import LightSearch.Client.ProtocolParser
import LightSearch.Client.Pager
import LightSearch.Client.TcpClient
import LightSearch.Server.LetterCase
import LightSearch.Server.TaskQueue
import LightSearch.Server.ThreadPool
import LightSearch.Server.EventLoop
import LightSearch.Server.Lifetime
import LightSearch.Server.Descriptors
import LightSearch.Utility.Configuration
import LightSearch.Dict.Boundaries
import LightSearch.Dict.LengthLoop
import LightSearch.Cppjieba.Unicode
import LightSearch.Cppjieba.Trie
import LightSearch.Cppjieba.DictTrie
import LightSearch.Cppjieba.SegmentBase
import LightSearch.Cppjieba.FullSegment
import LightSearch.Cppjieba.MPSegment
import LightSearch.Cppjieba.HMMSegment
import LightSearch.Cppjieba.MixSegment
import LightSearch.Cppjieba.KeywordExtractor
import LightSearch.PageLib.Jenkins
import LightSearch.PageLib.Fingerprint
import LightSearch.Utility.CppJieba
import LightSearch.Utility.PageRecall
import LightSearch.IndexGen.CnWords
import LightSearch.Client.Dialogue
import LightSearch.Client.Suggestions
import LightSearch.Server.Service
